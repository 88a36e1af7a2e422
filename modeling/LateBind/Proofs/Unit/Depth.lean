import LateBind.Proofs.Lexical.Places
import LateBind.Proofs.Unit.Chains
import LateBind.Unit.Construction

/-!
# How deep functions are nested

In a unit that can be published every function has a depth: the number of functions around it. It
is less than the number of functions, so that many steps are enough to go all the way up or down.
-/

namespace LateBind

theorem mem_numbered {fs : List Function} {id : FunctionId} {f : Function} :
    (id, f) ∈ numbered fs ↔ fs[id.index]? = some f := by
  unfold numbered
  rw [List.mem_map]
  constructor
  · rintro ⟨⟨g, i⟩, hg, hid⟩
    cases hid
    exact List.mem_zipIdx_iff_getElem?.1 hg
  · exact fun hf => ⟨(f, id.index), List.mem_zipIdx_iff_getElem?.2 hf, rfl⟩

theorem map_snd_numbered (fs : List Function) : (numbered fs).map (·.2) = fs := by
  unfold numbered
  rw [List.map_map]
  exact List.zipIdx_map_fst 0 fs

-- The functions that come before the one numbered `n`.
theorem mem_take_numbered {fs : List Function} {id : FunctionId} {f : Function} {n : Nat} :
    (id, f) ∈ (numbered fs).take n ↔ fs[id.index]? = some f ∧ id.index < n := by
  have hget : ∀ i : Nat, (numbered fs)[i]? = fs[i]?.map fun f => (⟨i⟩, f) := by
    intro i
    rw [numbered, List.getElem?_map, List.getElem?_zipIdx, Option.map_map, Nat.zero_add]
    rfl
  rw [List.mem_iff_getElem?]
  constructor
  · rintro ⟨i, hi⟩
    rw [List.getElem?_take, hget] at hi
    split at hi
    next hlt =>
      obtain ⟨g, hg, he⟩ := Option.map_eq_some_iff.1 hi
      cases he
      exact ⟨hg, hlt⟩
    next => cases hi
  · rintro ⟨hf, hlt⟩
    exact ⟨id.index, by rw [List.getElem?_take, if_pos hlt, hget, hf, Option.map_some]⟩

namespace Nesting

/-! ## 1. Depth -/

/-- Function `f` has `d` functions around it, the last of them no closure. -/
inductive Depth (t : Nesting) : FunctionId → Nat → Prop where
  | root {f : FunctionId} : t.isRoot f = true → Depth t f 0
  | inner {c p : FunctionId} {d : Nat} : t.enclosing? c = some p → Depth t p d → Depth t c (d + 1)

variable {t : Nesting}

theorem siteOf?_eq_some {c : FunctionId} {s : ClosureSite} :
    t.siteOf? c = some s ↔ t.isClosure c = true ∧ t.sitesOf c = [s] := by
  constructor
  · intro h
    unfold siteOf? at h
    split at h
    next hc =>
      split at h
      next hs =>
        cases h
        exact ⟨hc, hs⟩
      next => cases h
    next => cases h
  · rintro ⟨hc, hs⟩
    rw [siteOf?, if_pos hc, hs]

theorem isClosure_iff {f : FunctionId} :
    t.isClosure f = true ↔ ∃ x, t.functions[f.index]? = some x ∧ x.kind = .closure := by
  rw [isClosure, function?, Option.any_eq_true]
  simp only [decide_eq_true_eq]

theorem isRoot_iff {f : FunctionId} :
    t.isRoot f = true ↔ ∃ x, t.functions[f.index]? = some x ∧ x.kind ≠ .closure := by
  rw [isRoot, function?, Option.any_eq_true]
  simp only [decide_eq_true_eq]

theorem not_isClosure_of_isRoot {f : FunctionId} (hf : t.isRoot f = true) :
    t.isClosure f = false := by
  obtain ⟨x, hx, hkind⟩ := isRoot_iff.1 hf
  rw [isClosure, function?, hx, Option.any_some, decide_eq_false hkind]

theorem enclosing?_of_isRoot {f : FunctionId} (hf : t.isRoot f = true) :
    t.enclosing? f = none := by
  rw [enclosing?, siteOf?, if_neg (by rw [not_isClosure_of_isRoot hf]; decide), Option.map_none]

/-- The depth of a function is the length of its chain of enclosing functions. -/
theorem depth_iff_climbs {f : FunctionId} {d : Nat} :
    t.Depth f d ↔ ∃ r, Climbs t.enclosing? f d r ∧ t.isRoot r = true := by
  constructor
  · intro hd
    induction hd with
    | root hf => exact ⟨_, .here, hf⟩
    | inner hp _ ih =>
      obtain ⟨r, hclimbs, hr⟩ := ih
      exact ⟨r, .up hp hclimbs, hr⟩
  · rintro ⟨r, hclimbs, hr⟩
    induction hclimbs with
    | here => exact .root hr
    | up hp _ ih => exact .inner hp (ih hr)

theorem Depth.unique {f : FunctionId} {d e : Nat} (hd : t.Depth f d) (he : t.Depth f e) :
    d = e := by
  obtain ⟨r, hclimbs, hr⟩ := depth_iff_climbs.1 hd
  obtain ⟨r', hclimbs', hr'⟩ := depth_iff_climbs.1 he
  exact (hclimbs.end_unique (enclosing?_of_isRoot hr) hclimbs' (enclosing?_of_isRoot hr')).1

-- The function that makes a closure is one step less deep.
theorem Depth.of_siteOf? {c : FunctionId} {s : ClosureSite} {d : Nat} (hd : t.Depth c d)
    (hs : t.siteOf? c = some s) : ∃ e, d = e + 1 ∧ t.Depth s.owner e := by
  have howner : t.enclosing? c = some s.owner := by rw [enclosing?, hs, Option.map_some]
  cases hd with
  | root hc => rw [enclosing?_of_isRoot hc] at howner; cases howner
  | inner hp hd =>
    rw [hp] at howner
    cases howner
    exact ⟨_, rfl, hd⟩

theorem declared_of_isClosure {f : FunctionId} (hf : t.isClosure f = true) :
    f.index < t.functions.length := by
  obtain ⟨x, hx, -⟩ := isClosure_iff.1 hf
  exact (List.getElem?_eq_some_iff.1 hx).1

theorem isClosure_of_enclosing? {c p : FunctionId} (hp : t.enclosing? c = some p) :
    t.isClosure c = true := by
  obtain ⟨s, hs, -⟩ := Option.map_eq_some_iff.1 hp
  exact (siteOf?_eq_some.1 hs).1

theorem declared_of_isRoot {f : FunctionId} (hf : t.isRoot f = true) :
    f.index < t.functions.length := by
  obtain ⟨x, hx, -⟩ := isRoot_iff.1 hf
  exact (List.getElem?_eq_some_iff.1 hx).1

theorem declared_of_enclosing? {c p : FunctionId} (hp : t.enclosing? c = some p) :
    c.index < t.functions.length :=
  declared_of_isClosure (isClosure_of_enclosing? hp)

theorem Depth.declared {f : FunctionId} {d : Nat} (hd : t.Depth f d) :
    f.index < t.functions.length := by
  cases hd with
  | root hf => exact declared_of_isRoot hf
  | inner hp => exact declared_of_enclosing? hp

-- The functions around a function are fewer than all there are.
theorem Depth.lt {f : FunctionId} {d : Nat} (hd : t.Depth f d) : d < t.functions.length := by
  obtain ⟨r, hclimbs, hr⟩ := depth_iff_climbs.1 hd
  exact hclimbs.lt_size (fun _ _ => declared_of_enclosing?) (enclosing?_of_isRoot hr)
    (declared_of_isRoot hr)

/-! ## 2. The walk to a root -/

/-- The walk is long enough: it comes to a root exactly from the functions that have a depth. -/
theorem isRooted_iff {c : FunctionId} : t.isRooted c = true ↔ ∃ d, t.Depth c d := by
  rw [isRooted, reachesRoot_iff_of_size (fun _ _ => declared_of_enclosing?)
    (fun _ => declared_of_isRoot) (Nat.le_succ _)]
  refine exists_congr fun d => ?_
  rw [depth_iff_climbs]
  exact exists_congr fun r =>
    and_congr_right fun _ => and_iff_right_of_imp fun hr => enclosing?_of_isRoot hr

/-! ## 3. What the checks find -/

theorem strayErrors_eq_nil_iff :
    t.strayErrors = [] ↔ ∀ s ∈ t.sites, t.isClosure s.body = true := by
  rw [strayErrors, List.map_eq_nil_iff, List.filter_eq_nil_iff]
  simp only [Bool.not_eq_true', Bool.not_eq_false]

theorem functionErrors_eq_nil_iff {id : FunctionId} {f : Function} :
    t.functionErrors id f = [] ↔ f.isComplete = true ∧ (f.varargs = true → f.userParams ≠ []) ∧
      (f.kind = .closure → ∃ s, t.sitesOf id = [s]) := by
  have hbody : (if f.isComplete then [] else [ConstructionError.missingBody f.name f.span]) = [] ↔
      f.isComplete = true := by
    split <;> simp_all
  have hvarargs : (if f.varargs && f.userArity == 0 then
      [ConstructionError.varargsWithoutParameter f.name f.span] else []) = [] ↔
      (f.varargs = true → f.userParams ≠ []) := by
    rw [Function.userArity, ite_eq_right_iff, Bool.and_eq_true, beq_iff_eq, List.length_eq_zero_iff]
    simp
  rw [functionErrors, List.append_eq_nil_iff, List.append_eq_nil_iff, hbody, hvarargs, and_assoc]
  refine and_congr_right fun _ => and_congr_right fun _ => ?_
  split
  next hkind =>
    cases ht : t.sitesOf id with
    | nil => simp [hkind]
    | cons s rest => cases rest <;> simp [hkind]
  next hkind => simp [hkind]

theorem rootErrors_eq_nil_iff :
    t.rootErrors = [] ↔ ∀ c p, t.enclosing? c = some p → t.isRooted c = true := by
  rw [rootErrors, List.map_eq_nil_iff, List.filter_eq_nil_iff]
  constructor
  · intro h c p hp
    obtain ⟨x, hx, -⟩ := isClosure_iff.1 (isClosure_of_enclosing? hp)
    have hc := h (c, x) (mem_numbered.2 hx)
    simpa [hp] using hc
  · rintro h ⟨c, x⟩ - hc
    simp only [Bool.and_eq_true, Bool.not_eq_true', Option.isSome_iff_exists] at hc
    obtain ⟨⟨p, hp⟩, hunrooted⟩ := hc
    rw [h c p hp] at hunrooted
    cases hunrooted

theorem duplicateErrors_eq_nil_iff :
    t.duplicateErrors = [] ↔ ∀ i j f g, t.functions[i.index]? = some f →
      t.functions[j.index]? = some g → i.index < j.index → t.signature i f ≠ t.signature j g := by
  rw [duplicateErrors, List.filterMap_eq_nil_iff]
  constructor
  · intro h i j f g hf hg hlt heq
    have hj := h (j, g) (mem_numbered.2 hg)
    rw [Option.map_eq_none_iff, List.find?_eq_none] at hj
    exact hj (i, f) (mem_take_numbered.2 ⟨hf, hlt⟩) (beq_iff_eq.2 heq)
  · rintro h ⟨j, g⟩ hg
    rw [Option.map_eq_none_iff, List.find?_eq_none]
    rintro ⟨i, f⟩ hf heq
    obtain ⟨hf, hlt⟩ := mem_take_numbered.1 hf
    exact h i j f g hf (mem_numbered.1 hg) hlt (beq_iff_eq.1 heq)

theorem errors_eq_nil_iff :
    t.errors = [] ↔ t.strayErrors = [] ∧
      (∀ id f, t.functions[id.index]? = some f → t.functionErrors id f = []) ∧
      t.rootErrors = [] ∧ t.duplicateErrors = [] := by
  rw [errors, List.append_eq_nil_iff, List.append_eq_nil_iff, List.append_eq_nil_iff,
    List.flatMap_eq_nil_iff, and_assoc, and_assoc]
  refine and_congr_right fun _ => and_congr_left fun _ => ⟨?_, ?_⟩
  · exact fun h id f hf => h (id, f) (mem_numbered.2 hf)
  · exact fun h e he => h e.1 e.2 (mem_numbered.1 he)

/-! ## 4. Units that can be published -/

/-- Every closure is made in one place, everything that is made is a closure, and every function
has a depth. -/
structure WellNested (t : Nesting) : Prop where
  isClosure : ∀ s ∈ t.sites, t.isClosure s.body = true
  made : ∀ c, t.isClosure c = true → ∃ s, t.siteOf? c = some s
  depth : ∀ f, f.index < t.functions.length → ∃ d, t.Depth f d

/-- Each error there could be rules out one way of being ill nested. -/
theorem wellNested_of_errors (h : t.errors = []) : t.WellNested := by
  obtain ⟨hstray, hfunction, hroot, -⟩ := errors_eq_nil_iff.1 h
  have hmade : ∀ c, t.isClosure c = true → ∃ s, t.siteOf? c = some s := by
    intro c hc
    obtain ⟨x, hx, hkind⟩ := isClosure_iff.1 hc
    obtain ⟨s, hs⟩ := (functionErrors_eq_nil_iff.1 (hfunction c x hx)).2.2 hkind
    exact ⟨s, siteOf?_eq_some.2 ⟨hc, hs⟩⟩
  refine ⟨strayErrors_eq_nil_iff.1 hstray, hmade, fun f hf => ?_⟩
  have hx : t.functions[f.index]? = some t.functions[f.index] := List.getElem?_eq_getElem hf
  by_cases hkind : t.functions[f.index].kind = .closure
  · obtain ⟨s, hs⟩ := hmade f (isClosure_iff.2 ⟨_, hx, hkind⟩)
    have hp : t.enclosing? f = some s.owner := by rw [enclosing?, hs, Option.map_some]
    exact isRooted_iff.1 (rootErrors_eq_nil_iff.1 hroot f s.owner hp)
  · exact ⟨0, .root (isRoot_iff.2 ⟨_, hx, hkind⟩)⟩

end Nesting

end LateBind

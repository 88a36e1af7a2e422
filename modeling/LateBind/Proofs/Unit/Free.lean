import LateBind.Proofs.Unit.Depth
import LateBind.Unit.Capture

/-!
# Free names

What is free in a function, said of the trees of its unit: a name it uses where nothing has bound
it, or one that is free in a closure it makes there. A walk through a function meets its free names
in an order, and the analysis of a unit that can be published finds each of them once, in order of
first occurrence.
-/

namespace LateBind

/-! ## 1. First occurrences -/

section FirstOccurrences

variable {α : Type} [BEq α] [LawfulBEq α]

theorem nodup_eraseDups (l : List α) : l.eraseDups.Nodup := by
  match l with
  | [] => exact List.nodup_nil
  | a :: rest =>
    rw [List.eraseDups_cons]
    refine List.nodup_cons.2 ⟨fun ha => ?_, nodup_eraseDups _⟩
    have hne := (List.mem_filter.1 (List.mem_eraseDups.1 ha)).2
    simp at hne
termination_by l.length
decreasing_by exact Nat.lt_succ_of_le (List.length_filter_le _ _)

theorem eraseDups_filter (p : α → Bool) (l : List α) :
    (l.filter p).eraseDups = l.eraseDups.filter p := by
  match l with
  | [] => rfl
  | a :: rest =>
    have ih := eraseDups_filter p (rest.filter fun b => !b == a)
    rw [List.eraseDups_cons, List.filter_cons, List.filter_cons]
    split
    · rw [List.eraseDups_cons, ← ih, List.filter_filter, List.filter_filter]
      simp only [Bool.and_comm]
    next hp =>
      -- What is dropped for being equal to `a` would not pass the filter either.
      rw [← ih, List.filter_filter]
      congr 1
      refine List.filter_congr fun b _ => ?_
      by_cases hb : b = a <;> simp [hb, hp]
termination_by l.length
decreasing_by exact Nat.lt_succ_of_le (List.length_filter_le _ _)

theorem eraseDups_append_congr {a a' b b' : List α} (ha : a.eraseDups = a'.eraseDups)
    (hb : b.eraseDups = b'.eraseDups) : (a ++ b).eraseDups = (a' ++ b').eraseDups := by
  have hmem : ∀ x, x ∈ a ↔ x ∈ a' := fun x => by
    rw [← List.mem_eraseDups (l := a), ha, List.mem_eraseDups]
  rw [List.eraseDups_append, List.eraseDups_append, ha, List.removeAll, List.removeAll,
    eraseDups_filter, eraseDups_filter, hb]
  congr 1
  refine List.filter_congr fun x _ => ?_
  by_cases hx : x ∈ a' <;> simp [hmem, hx]

theorem eraseDups_of_nodup {l : List α} (h : l.Nodup) : l.eraseDups = l := by
  induction l with
  | nil => rfl
  | cons a rest ih =>
    obtain ⟨ha, hrest⟩ := List.nodup_cons.1 h
    have hkept : rest.filter (fun b => !b == a) = rest := by
      refine List.filter_eq_self.2 fun b hb => ?_
      have hne : b ≠ a := fun e => ha (e ▸ hb)
      simpa using hne
    rw [List.eraseDups_cons, hkept, ih hrest]

end FirstOccurrences

/-! ## 2. Free names of a function -/

/-- `n` is free in function `f` of `fs`. -/
inductive FreeIn (fs : List Function) : FunctionId → Name → Prop where
  /-- It is read, assigned or called where nothing has bound it. -/
  | used {f : FunctionId} {x : Function} {ns : List Name} {m : Mark} {n : Name} :
      fs[f.index]? = some x → x.Does ns m → m.usedName? = some n → n ∉ ns → FreeIn fs f n
  /-- It is free in a closure that is made where nothing has bound it. -/
  | inner {f c : FunctionId} {x : Function} {ns : List Name} {sp : Span} {n : Name} :
      fs[f.index]? = some x → x.Does ns (.closure c sp) → FreeIn fs c n → n ∉ ns → FreeIn fs f n

mutual

/-- `ws` are the occurrences of free names in `f` from left to right. Those of a closure count
where it is made. -/
inductive FreeWalk (fs : List Function) : FunctionId → List Name → Prop where
  | mk {f : FunctionId} {x : Function} {ws : List Name} :
      fs[f.index]? = some x → FreeAlong fs x.walk ws → FreeWalk fs f ws

/-- `ws` are the occurrences of free names at the places of a walk. -/
inductive FreeAlong (fs : List Function) : List Place → List Name → Prop where
  | nil : FreeAlong fs [] []
  | closure {q : Place} {rest : List Place} {c : FunctionId} {sp : Span} {inner ws : List Name} :
      q.mark = .closure c sp → FreeWalk fs c inner → FreeAlong fs rest ws →
        FreeAlong fs (q :: rest) (inner.filter (· ∉ q.bound) ++ ws)
  | other {q : Place} {rest : List Place} {ws : List Name} :
      (∀ c sp, q.mark ≠ .closure c sp) → FreeAlong fs rest ws →
        FreeAlong fs (q :: rest) (q.mark.usedName?.toList.filter (· ∉ q.bound) ++ ws)

end

section Walk

variable {fs : List Function}

mutual

theorem FreeWalk.freeIn {f : FunctionId} {ws : List Name} :
    FreeWalk fs f ws → ∀ n ∈ ws, FreeIn fs f n
  | .mk hx hws, n, hn => by
    obtain ⟨q, hq, hbound, hn⟩ := hws.freeAt n hn
    have hdoes := Function.mem_walk.1 hq
    rcases hn with hn | ⟨c, sp, hc, hn⟩
    · exact .used hx hdoes hn hbound
    · exact .inner hx (hc ▸ hdoes) hn hbound

-- What is met along a walk is free at one of its places.
theorem FreeAlong.freeAt {qs : List Place} {ws : List Name} :
    FreeAlong fs qs ws → ∀ n ∈ ws, ∃ q ∈ qs, n ∉ q.bound ∧
      (q.mark.usedName? = some n ∨ ∃ c sp, q.mark = .closure c sp ∧ FreeIn fs c n)
  | .nil, n, hn => absurd hn List.not_mem_nil
  | .closure hc hinner hrest, n, hn => by
    rcases List.mem_append.1 hn with hn | hn
    · obtain ⟨hn, hbound⟩ := List.mem_filter.1 hn
      exact ⟨_, List.mem_cons_self, of_decide_eq_true hbound, .inr ⟨_, _, hc, hinner.freeIn n hn⟩⟩
    · obtain ⟨r, hr, h⟩ := hrest.freeAt n hn
      exact ⟨r, List.mem_cons_of_mem _ hr, h⟩
  | .other hother hrest, n, hn => by
    rcases List.mem_append.1 hn with hn | hn
    · obtain ⟨hn, hbound⟩ := List.mem_filter.1 hn
      exact ⟨_, List.mem_cons_self, of_decide_eq_true hbound, .inl (Option.mem_toList.1 hn)⟩
    · obtain ⟨r, hr, h⟩ := hrest.freeAt n hn
      exact ⟨r, List.mem_cons_of_mem _ hr, h⟩

end

-- Whatever is used at a place of a walk without being bound there is met along it.
theorem FreeAlong.mem_of_used {qs : List Place} {ws : List Name} (h : FreeAlong fs qs ws)
    {q : Place} (hq : q ∈ qs) {n : Name} (hn : q.mark.usedName? = some n) (hbound : n ∉ q.bound) :
    n ∈ ws := by
  induction qs generalizing ws with
  | nil => exact absurd hq List.not_mem_nil
  | cons r rest ih =>
    cases h with
    | closure hc _ hrest =>
      rcases List.mem_cons.1 hq with rfl | hq
      · rw [hc] at hn
        cases hn
      · exact List.mem_append_right _ (ih hrest hq)
    | other _ hrest =>
      rcases List.mem_cons.1 hq with rfl | hq
      · refine List.mem_append_left _ (List.mem_filter.2 ⟨Option.mem_toList.2 hn, ?_⟩)
        exact decide_eq_true hbound
      · exact List.mem_append_right _ (ih hrest hq)

-- Whatever is met along a closure is met along the walk past the place that makes it, unless it is
-- bound there.
theorem FreeAlong.mem_of_inner {qs : List Place} {ws : List Name} (h : FreeAlong fs qs ws)
    {q : Place} (hq : q ∈ qs) {c : FunctionId} {sp : Span} (hc : q.mark = .closure c sp) :
    ∃ inner, FreeWalk fs c inner ∧ ∀ n ∈ inner, n ∉ q.bound → n ∈ ws := by
  induction qs generalizing ws with
  | nil => exact absurd hq List.not_mem_nil
  | cons r rest ih =>
    cases h with
    | @closure _ _ _ _ inner _ hc' hinner hrest =>
      rcases List.mem_cons.1 hq with rfl | hq
      · rw [hc] at hc'
        cases hc'
        refine ⟨inner, hinner, fun n hn hbound => List.mem_append_left _ ?_⟩
        exact List.mem_filter.2 ⟨hn, decide_eq_true hbound⟩
      · obtain ⟨inner, hinner, hmem⟩ := ih hrest hq
        exact ⟨inner, hinner, fun n hn hbound => List.mem_append_right _ (hmem n hn hbound)⟩
    | other hother hrest =>
      rcases List.mem_cons.1 hq with rfl | hq
      · exact absurd hc (hother c sp)
      · obtain ⟨inner, hinner, hmem⟩ := ih hrest hq
        exact ⟨inner, hinner, fun n hn hbound => List.mem_append_right _ (hmem n hn hbound)⟩

/-- The walk through a function meets its free names and no others. -/
theorem FreeWalk.mem_iff {f : FunctionId} {ws : List Name} (h : FreeWalk fs f ws) {n : Name} :
    n ∈ ws ↔ FreeIn fs f n := by
  refine ⟨fun hn => h.freeIn n hn, fun hn => ?_⟩
  -- By induction on why `n` is free, along any walk.
  induction hn generalizing ws with
  | used hx hdoes hn hbound =>
    obtain ⟨hy, hws⟩ := h
    rw [hx] at hy
    cases hy
    exact hws.mem_of_used (Function.mem_walk (q := ⟨_, _⟩).2 hdoes) hn hbound
  | inner hx hdoes _ hbound ih =>
    obtain ⟨hy, hws⟩ := h
    rw [hx] at hy
    cases hy
    obtain ⟨inner, hinner, hmem⟩ := hws.mem_of_inner (Function.mem_walk (q := ⟨_, _⟩).2 hdoes) rfl
    exact hmem _ (ih hinner) hbound

end Walk

/-! ## 3. The analysis -/

/-- The free names found at a place if `inner c` are those found in closure `c`. -/
def Place.free (inner : FunctionId → List Name) (q : Place) : List Name :=
  let used := match q.mark with
    | .closure c _ => inner c
    | m => m.usedName?.toList
  used.filter (· ∉ q.bound)

-- What is found along a walk is what the walk meets, if that is so of the closures made there.
theorem exists_freeAlong {fs : List Function} {inner : FunctionId → List Name} {qs : List Place}
    (hinner : ∀ q ∈ qs, ∀ c sp, q.mark = .closure c sp →
      ∃ ws, FreeWalk fs c ws ∧ inner c = ws.eraseDups) :
    ∃ ws, FreeAlong fs qs ws ∧ (qs.flatMap (Place.free inner)).eraseDups = ws.eraseDups := by
  induction qs with
  | nil => exact ⟨[], .nil, rfl⟩
  | cons q rest ih =>
    obtain ⟨ws, hws, heq⟩ := ih fun r hr => hinner r (List.mem_cons_of_mem _ hr)
    by_cases hc : ∃ c sp, q.mark = .closure c sp
    · obtain ⟨c, sp, hc⟩ := hc
      obtain ⟨ws', hws', hfound⟩ := hinner q List.mem_cons_self c sp hc
      refine ⟨_, .closure hc hws' hws, ?_⟩
      rw [List.flatMap_cons]
      refine eraseDups_append_congr ?_ heq
      simp only [Place.free, hc, hfound]
      rw [eraseDups_filter, eraseDups_filter, eraseDups_of_nodup (nodup_eraseDups ws')]
    · have hother : ∀ c sp, q.mark ≠ .closure c sp := fun c sp h => hc ⟨c, sp, h⟩
      refine ⟨_, .other hother hws, ?_⟩
      rw [List.flatMap_cons]
      refine eraseDups_append_congr ?_ heq
      unfold Place.free
      split
      next c sp h => exact absurd h (hother c sp)
      next => rfl

namespace Nesting

variable {fs : List Function}

theorem mem_sites {s : ClosureSite} :
    s ∈ (ofFunctions fs).sites ↔ ∃ x, fs[s.owner.index]? = some x ∧
      ∃ p ∈ x.points, p.mark = .closure s.body s.span ∧ p.scope = s.scope := by
  simp only [ofFunctions, Function.closureSites, List.mem_flatMap, List.mem_filterMap]
  constructor
  · rintro ⟨⟨id, x⟩, hx, p, hp, hs⟩
    split at hs
    next body span hm =>
      cases hs
      exact ⟨x, mem_numbered.1 hx, p, hp, hm, rfl⟩
    next => cases hs
  · rintro ⟨x, hx, p, hp, hm, hscope⟩
    refine ⟨(s.owner, x), mem_numbered.2 hx, p, hp, ?_⟩
    rw [hm, hscope]

-- The place behind the site of a closure.
theorem does_of_siteOf? {c : FunctionId} {s : ClosureSite}
    (hs : (ofFunctions fs).siteOf? c = some s) :
    ∃ x ns, fs[s.owner.index]? = some x ∧ x.Does ns (.closure c s.span) ∧ s.scope.Binds ns := by
  have hmem : s ∈ (ofFunctions fs).sitesOf c := by
    rw [(siteOf?_eq_some.1 hs).2]
    exact List.mem_cons_self
  obtain ⟨hmem, hbody⟩ := List.mem_filter.1 hmem
  obtain ⟨x, hx, p, hp, hm, hscope⟩ := mem_sites.1 hmem
  rw [← x.withCaptured_nil] at hp
  obtain ⟨q, hq, hpm, hps⟩ := Function.exists_place hp (by simp [hm])
  refine ⟨x, q.bound, hx, ?_, hscope ▸ hps⟩
  rw [← eq_of_beq hbody, ← hm, hpm]
  exact Function.mem_walk.1 hq

-- The site of a closure that is made at a place.
theorem WellNested.siteOf?_of_does (hw : (ofFunctions fs).WellNested) {f c : FunctionId}
    {x : Function} {ns : List Name} {sp : Span} (hx : fs[f.index]? = some x)
    (hd : x.Does ns (.closure c sp)) :
    ∃ s, (ofFunctions fs).siteOf? c = some s ∧ s.owner = f ∧ s.scope.Binds ns := by
  obtain ⟨p, hp, hm, hscope⟩ := Function.exists_point [] (Function.mem_walk (q := ⟨ns, _⟩).2 hd)
  rw [x.withCaptured_nil] at hp
  have hsite : (⟨f, c, sp, p.scope⟩ : ClosureSite) ∈ (ofFunctions fs).sites :=
    mem_sites.2 ⟨x, hx, p, hp, hm, rfl⟩
  obtain ⟨s, hs⟩ := hw.made c (hw.isClosure _ hsite)
  have hmem : (⟨f, c, sp, p.scope⟩ : ClosureSite) ∈ (ofFunctions fs).sitesOf c :=
    List.mem_filter.2 ⟨hsite, beq_self_eq_true c⟩
  rw [(siteOf?_eq_some.1 hs).2] at hmem
  exact ⟨s, hs, List.mem_singleton.1 hmem ▸ ⟨rfl, hscope⟩⟩

-- The analysis of a function looks at the places of its walk.
theorem freeNames_succ {k : Nat} {f : FunctionId} {x : Function} (hx : fs[f.index]? = some x) :
    (ofFunctions fs).freeNames (k + 1) f =
      (x.walk.flatMap (Place.free ((ofFunctions fs).freeNames k))).eraseDups := by
  have hx' : (ofFunctions fs).function? f = some x := hx
  rw [freeNames, hx']
  apply congrArg List.eraseDups
  have hpoints := x.flatMap_points []
    (g := fun p => (match p.mark with
      | .closure c _ => (ofFunctions fs).freeNames k c
      | m => m.usedName?.toList).filter fun n => !p.scope.binds n)
    (k := Place.free ((ofFunctions fs).freeNames k)) ?_ ?_
  · rwa [x.withCaptured_nil] at hpoints
  · intro p s hp
    simp only [hp, Mark.usedName?, Option.toList_none, List.filter_nil]
  · intro p q _ ⟨hm, hscope⟩
    rw [hm]
    refine List.filter_congr fun n _ => ?_
    have hn := hscope n
    rw [List.nil_append] at hn
    rw [Bool.eq_iff_iff, Bool.not_eq_true', decide_eq_true_eq, ← hn, Bool.not_eq_true]

/-- With enough fuel the analysis finds what the walk meets, each name at its first occurrence. -/
theorem WellNested.exists_freeWalk (hw : (ofFunctions fs).WellNested) {k : Nat} {f : FunctionId}
    {d : Nat} (hd : (ofFunctions fs).Depth f d) (hk : fs.length ≤ k + d) :
    ∃ ws, FreeWalk fs f ws ∧ (ofFunctions fs).freeNames k f = ws.eraseDups := by
  induction k generalizing f d with
  | zero =>
    have hlt : d < fs.length := hd.lt
    omega
  | succ k ih =>
    obtain ⟨x, hx⟩ : ∃ x, fs[f.index]? = some x := ⟨_, List.getElem?_eq_getElem hd.declared⟩
    -- A closure made here is one level further down, and so needs one unit of fuel less.
    have hclosures : ∀ q ∈ x.walk, ∀ c sp, q.mark = .closure c sp →
        ∃ ws, FreeWalk fs c ws ∧ (ofFunctions fs).freeNames k c = ws.eraseDups := by
      intro q hq c sp hc
      have hdoes : x.Does q.bound (.closure c sp) := hc ▸ Function.mem_walk.1 hq
      obtain ⟨s, hs, rfl, -⟩ := hw.siteOf?_of_does hx hdoes
      have hinner : (ofFunctions fs).Depth c (d + 1) :=
        .inner (by rw [enclosing?, hs, Option.map_some]) hd
      exact ih hinner (by omega)
    obtain ⟨ws, hws, heq⟩ := exists_freeAlong hclosures
    exact ⟨ws, .mk hx hws, (freeNames_succ hx).trans heq⟩

/-- The analysis of a function finds its free names. -/
theorem WellNested.mem_freeNames (hw : (ofFunctions fs).WellNested) {f : FunctionId} {d : Nat}
    (hd : (ofFunctions fs).Depth f d) {n : Name} :
    n ∈ (ofFunctions fs).freeNames fs.length f ↔ FreeIn fs f n := by
  obtain ⟨ws, hws, heq⟩ := hw.exists_freeWalk hd (Nat.le_add_right _ _)
  rw [heq, List.mem_eraseDups, hws.mem_iff]

end Nesting

end LateBind

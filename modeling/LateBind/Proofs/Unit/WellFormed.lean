import LateBind.Proofs.Lexical.Traversal
import LateBind.Proofs.Unit.Captures

/-!
# Which units can be published

A unit is well formed if each function has what it needs by itself, functions are told apart in
every place, and closures hang together as trees that grow from functions outside all closures. This
is said of the functions alone, by what the expressions in their bodies make. The checks work on a
table of places and walk along it for a bounded number of steps; they refuse exactly the other
units.
-/

namespace LateBind

/-! ## 1. Well-formed units -/

/-- The closures that the body of a function makes, one for each expression that makes one. -/
def Function.made (f : Function) : List FunctionId :=
  closuresMade (f.body.elim [] (·.events everything))

/-- Function `p` makes closure `c`: it is the one around it. -/
def Makes (fs : List Function) (p c : FunctionId) : Prop :=
  ∃ x, fs[p.index]? = some x ∧ c ∈ x.made

/-- Going from closures to functions that make them, one gets from `c` to a function that is no
closure. -/
inductive Rooted (fs : List Function) : FunctionId → Prop where
  | root {f : FunctionId} {x : Function} : fs[f.index]? = some x → x.kind ≠ .closure → Rooted fs f
  | inner {c p : FunctionId} : Makes fs p c → Rooted fs p → Rooted fs c

structure WellFormed (fs : List Function) : Prop where
  /-- Only closures are made, and only those declared. -/
  closure : ∀ p c : FunctionId, Makes fs p c → ∃ x, fs[c.index]? = some x ∧ x.kind = .closure
  /-- Every function is complete. -/
  body : ∀ x ∈ fs, x.body.isSome = true
  /-- There is a parameter for the trailing arguments. -/
  varargs : ∀ x ∈ fs, x.varargs = true → x.userParams ≠ []
  /-- Of all expressions in the unit exactly one makes a given closure. -/
  once : ∀ (c : FunctionId) (x : Function), fs[c.index]? = some x → x.kind = .closure →
    (fs.flatMap (·.made)).count c = 1
  rooted : ∀ (c : FunctionId) (x : Function), fs[c.index]? = some x → x.kind = .closure →
    Rooted fs c
  /-- No two functions with one function around them, or both with none, have the same name, kind,
  target and number of parameters. -/
  distinct : ∀ (i j : FunctionId) (x y : Function), fs[i.index]? = some x → fs[j.index]? = some y →
    (∀ p, Makes fs p i ↔ Makes fs p j) → x.name = y.name → x.kind = y.kind →
    x.target = y.target → x.userArity = y.userArity → i = j

/-! ## 2. Places that make closures -/

theorem Function.map_body_closureSites (f : Function) (id : FunctionId) :
    (f.closureSites id).map (·.body) = f.points.filterMap (·.mark.closure?) := by
  rw [closureSites, List.map_filterMap]
  refine List.filterMap_congr fun p _ => ?_
  cases p.mark <;> rfl

theorem Function.made_eq (f : Function) (id : FunctionId) :
    f.made = (f.closureSites id).map (·.body) := by
  have hpoints : f.made = closuresAlong f.points := (f.closuresAlong_points id).symm
  rw [hpoints, map_body_closureSites, closuresAlong, closuresAt, List.filterMap_map]
  rfl

theorem Function.made_eq_walk (f : Function) : f.made = f.walk.filterMap (·.mark.closure?) := by
  have hwalk := f.filterMap_points [] (g := fun p => p.mark.closure?)
    (k := fun q => q.mark.closure?) (fun p s hp => by rw [hp]; rfl) fun p q _ hpq => by rw [hpq.1]
  rw [f.withCaptured_nil] at hwalk
  rw [f.made_eq ⟨0⟩, f.map_body_closureSites, hwalk]

theorem Function.owner_of_mem_closureSites {f : Function} {id : FunctionId} {s : ClosureSite}
    (hs : s ∈ f.closureSites id) : s.owner = id := by
  obtain ⟨p, -, hp⟩ := List.mem_filterMap.1 hs
  split at hp
  next =>
    cases hp
    rfl
  next => cases hp

namespace Nesting

-- A closure is counted once for each of its sites.
theorem length_sitesOf (t : Nesting) (c : FunctionId) :
    (t.sitesOf c).length = (t.sites.map (·.body)).count c := by
  rw [List.count, List.countP_map, List.countP_eq_length_filter]
  rfl

variable {fs : List Function} {p c : FunctionId}

theorem map_body_sites (fs : List Function) :
    (ofFunctions fs).sites.map (·.body) = fs.flatMap (·.made) := by
  conv_rhs => rw [← map_snd_numbered fs, List.flatMap_map]
  rw [ofFunctions, List.map_flatMap]
  exact List.flatMap_congr fun e _ => (e.2.made_eq e.1).symm

theorem makes_iff_exists_site :
    Makes fs p c ↔ ∃ s ∈ (ofFunctions fs).sites, s.owner = p ∧ s.body = c := by
  constructor
  · rintro ⟨x, hx, hc⟩
    rw [x.made_eq p] at hc
    obtain ⟨s, hs, rfl⟩ := List.mem_map.1 hc
    exact ⟨s, List.mem_flatMap.2 ⟨(p, x), mem_numbered.2 hx, hs⟩,
      Function.owner_of_mem_closureSites hs, rfl⟩
  · rintro ⟨s, hs, rfl, rfl⟩
    obtain ⟨⟨id, x⟩, hx, hs⟩ := List.mem_flatMap.1 hs
    rw [Function.owner_of_mem_closureSites hs]
    exact ⟨x, mem_numbered.1 hx, x.made_eq id ▸ List.mem_map_of_mem hs⟩

-- Where all that is made are closures with one site each, the table says who makes them.
theorem enclosing?_iff_makes
    (hclosure : ∀ s ∈ (ofFunctions fs).sites, (ofFunctions fs).isClosure s.body = true)
    (hmade : ∀ c, (ofFunctions fs).isClosure c = true → ∃ s, (ofFunctions fs).siteOf? c = some s) :
    (ofFunctions fs).enclosing? c = some p ↔ Makes fs p c := by
  rw [makes_iff_exists_site, enclosing?, Option.map_eq_some_iff]
  constructor
  · rintro ⟨s, hs, rfl⟩
    have hmem : s ∈ (ofFunctions fs).sitesOf c := by
      rw [(siteOf?_eq_some.1 hs).2]
      exact List.mem_cons_self
    exact ⟨s, (List.mem_filter.1 hmem).1, rfl, eq_of_beq (List.mem_filter.1 hmem).2⟩
  · rintro ⟨s, hs, rfl, rfl⟩
    obtain ⟨s', hs'⟩ := hmade s.body (hclosure s hs)
    have hmem : s ∈ (ofFunctions fs).sitesOf s.body :=
      List.mem_filter.2 ⟨hs, beq_self_eq_true s.body⟩
    rw [(siteOf?_eq_some.1 hs').2] at hmem
    exact ⟨s', hs', by rw [List.mem_singleton.1 hmem]⟩

theorem WellNested.enclosing?_iff (hw : (ofFunctions fs).WellNested) :
    (ofFunctions fs).enclosing? c = some p ↔ Makes fs p c :=
  enclosing?_iff_makes hw.isClosure hw.made

theorem WellNested.enclosing?_eq_iff (hw : (ofFunctions fs).WellNested) {i j : FunctionId} :
    (ofFunctions fs).enclosing? i = (ofFunctions fs).enclosing? j ↔
      ∀ p, Makes fs p i ↔ Makes fs p j := by
  simp only [← hw.enclosing?_iff]
  exact ⟨fun h p => by rw [h], fun h => Option.ext h⟩

/-! ## 3. What is not reported is well formed -/

theorem WellNested.rooted_of_depth (hw : (ofFunctions fs).WellNested) {d : Nat}
    (hd : (ofFunctions fs).Depth c d) : Rooted fs c := by
  induction hd with
  | root hf =>
    obtain ⟨x, hx, hkind⟩ := isRoot_iff.1 hf
    exact .root hx hkind
  | inner hp _ ih => exact .inner (hw.enclosing?_iff.1 hp) ih

theorem wellFormed_of_errors (h : (ofFunctions fs).errors = []) : WellFormed fs := by
  have hw := wellNested_of_errors h
  obtain ⟨hstray, hfunction, -, hduplicate⟩ := errors_eq_nil_iff.1 h
  have hchecked : ∀ (i : Nat) (x : Function), fs[i]? = some x → _ := fun i x hx =>
    functionErrors_eq_nil_iff.1 (hfunction ⟨i⟩ x hx)
  have hsignature := duplicateErrors_eq_nil_iff.1 hduplicate
  refine ⟨fun p c hc => ?_, fun x hx => ?_, fun x hx => ?_, fun c x hx hkind => ?_,
    fun c x hx _ => ?_, ?_⟩
  · obtain ⟨s, hs, -, rfl⟩ := makes_iff_exists_site.1 hc
    exact isClosure_iff.1 (hw.isClosure s hs)
  · obtain ⟨i, hi⟩ := List.mem_iff_getElem?.1 hx
    exact (hchecked i x hi).1
  · obtain ⟨i, hi⟩ := List.mem_iff_getElem?.1 hx
    exact (hchecked i x hi).2.1
  · obtain ⟨s, hs⟩ := (hchecked c.index x hx).2.2 hkind
    rw [← map_body_sites, ← length_sitesOf, hs, List.length_singleton]
  · obtain ⟨d, hd⟩ := hw.depth c (List.getElem?_eq_some_iff.1 hx).1
    exact hw.rooted_of_depth hd
  · intro i j x y hx hy hmakers hname hkind htarget harity
    have heq : (ofFunctions fs).signature i x = (ofFunctions fs).signature j y := by
      simp only [signature, hw.enclosing?_eq_iff.2 hmakers, hname, hkind, htarget, harity]
    -- Of two functions with one signature the later would be reported.
    rcases Nat.lt_trichotomy i.index j.index with hlt | hindex | hlt
    · exact absurd heq (hsignature i j x y hx hy hlt)
    · cases i
      cases j
      exact congrArg FunctionId.mk hindex
    · exact absurd heq.symm (hsignature j i y x hy hx hlt)

/-! ## 4. What is well formed is not reported -/

end Nesting

open Nesting

namespace WellFormed

variable {fs : List Function}

theorem sitesOf_eq (h : WellFormed fs) {c : FunctionId} {x : Function} (hx : fs[c.index]? = some x)
    (hkind : x.kind = .closure) : ∃ s, (ofFunctions fs).sitesOf c = [s] := by
  rw [← List.length_eq_one_iff, length_sitesOf, map_body_sites]
  exact h.once c x hx hkind

theorem wellNested (h : WellFormed fs) : (ofFunctions fs).WellNested := by
  have hclosure : ∀ s ∈ (ofFunctions fs).sites, (ofFunctions fs).isClosure s.body = true :=
    fun s hs => isClosure_iff.2
      (h.closure s.owner s.body (makes_iff_exists_site.2 ⟨s, hs, rfl, rfl⟩))
  have hmade : ∀ c, (ofFunctions fs).isClosure c = true →
      ∃ s, (ofFunctions fs).siteOf? c = some s := by
    intro c hc
    obtain ⟨x, hx, hkind⟩ := isClosure_iff.1 hc
    obtain ⟨s, hs⟩ := h.sitesOf_eq hx hkind
    exact ⟨s, siteOf?_eq_some.2 ⟨hc, hs⟩⟩
  have hdepth : ∀ {f}, Rooted fs f → ∃ d, (ofFunctions fs).Depth f d := by
    intro f hf
    induction hf with
    | root hx hkind => exact ⟨0, .root (isRoot_iff.2 ⟨_, hx, hkind⟩)⟩
    | inner hc _ ih =>
      obtain ⟨d, hd⟩ := ih
      exact ⟨d + 1, .inner ((enclosing?_iff_makes hclosure hmade).2 hc) hd⟩
  refine ⟨hclosure, hmade, fun f hf => hdepth ?_⟩
  have hx : fs[f.index]? = some fs[f.index] := List.getElem?_eq_getElem hf
  by_cases hkind : fs[f.index].kind = .closure
  · exact h.rooted f _ hx hkind
  · exact .root hx hkind

theorem errors_eq_nil (h : WellFormed fs) : (ofFunctions fs).errors = [] := by
  have hw := h.wellNested
  refine errors_eq_nil_iff.2 ⟨strayErrors_eq_nil_iff.2 hw.isClosure, fun id x hx => ?_,
    rootErrors_eq_nil_iff.2 fun c p hp => ?_, duplicateErrors_eq_nil_iff.2 ?_⟩
  · have hmem : x ∈ fs := List.mem_of_getElem? hx
    exact functionErrors_eq_nil_iff.2 ⟨h.body x hmem, h.varargs x hmem, h.sitesOf_eq hx⟩
  · exact isRooted_iff.2 (hw.depth c (declared_of_isClosure (isClosure_of_enclosing? hp)))
  · intro i j x y hx hy hlt heq
    simp only [signature, Prod.mk.injEq] at heq
    obtain ⟨hmakers, hname, hkind, htarget, harity⟩ := heq
    have hij := h.distinct i j x y hx hy (hw.enclosing?_eq_iff.1 hmakers) hname hkind htarget harity
    exact absurd hlt (hij ▸ Nat.lt_irrefl _)

end WellFormed

/-! ## 5. Publishing -/

/-- What publishing does to a function: a closure gets more parameters, after those it has. -/
def Function.Extended (f g : Function) : Prop :=
  ∃ added, g = f.withCaptured added ∧ g.params = f.params ++ added ∧
    (f.kind ≠ .closure → added = [])

theorem Function.params_withCaptured (f : Function) (added : List Name) :
    (f.withCaptured added).params = f.params ++ added :=
  (List.append_assoc f.userParams f.syntheticParams added).symm

-- Only what is nested can capture.
theorem Nesting.captures_eq_nil {t : Nesting} {f : FunctionId} (hf : t.isClosure f ≠ true) :
    t.captures f = [] := by
  unfold captures
  cases t.functions.length with
  | zero => rfl
  | succ n => rw [capturesWithin, siteOf?, if_neg hf]

theorem Builder.withCaptures_extended (b : Builder) :
    List.Forall₂ Function.Extended b.functions b.withCaptures := by
  rw [withCaptures, List.forall₂_map_right_iff]
  conv => arg 2; rw [← map_snd_numbered b.functions]
  rw [List.forall₂_map_left_iff, List.forall₂_same]
  rintro ⟨id, f⟩ hf
  refine ⟨b.nesting.captures id, rfl, f.params_withCaptured _, fun hkind =>
    Nesting.captures_eq_nil fun hc => ?_⟩
  obtain ⟨x, hx, hclosure⟩ := isClosure_iff.1 hc
  have hsame : b.functions[id.index]? = some x := hx
  rw [mem_numbered.1 hf] at hsame
  cases hsame
  exact hkind hclosure

namespace Builder

variable {b : Builder} {names : Interner}

theorem finish_eq_ok_iff {m : Module} : b.finish names = .ok m ↔
    b.nesting.errors = [] ∧ m = ⟨b.name, b.imports, b.withCaptures, b.nextSite⟩ := by
  unfold finish publish
  cases b.nesting.errors with
  | nil => simp [eq_comm]
  | cons e es => simp

-- Every error is reported, and there is one.
theorem finish_eq_error {ds : List Diagnostic} (h : b.finish names = .error ds) :
    b.nesting.errors ≠ [] ∧ ds.Perm (b.nesting.errors.map (·.report names)) := by
  unfold finish publish at h
  cases hes : b.nesting.errors with
  | nil =>
    rw [hes] at h
    cases h
  | cons e es =>
    rw [hes] at h
    cases h
    exact ⟨List.cons_ne_nil e es, List.mergeSort_perm _ _⟩

end Builder

/-- **Publishing accepts exactly the well-formed units, and only adds captured names.** Whatever a
builder holds, it publishes its unit if and only if the functions are well formed, and gives reasons
otherwise. The unit is then the one that was built, but for captured names after the parameters of
closures. -/
theorem finish_iff_wellFormed (b : Builder) (names : Interner) :
    ((∃ m, b.finish names = .ok m) ↔ WellFormed b.functions) ∧
    (∀ m, b.finish names = .ok m → m.name = b.name ∧ m.imports = b.imports ∧
      m.callSites = b.nextSite ∧ List.Forall₂ Function.Extended b.functions m.functions) ∧
    ∀ ds, b.finish names = .error ds → ds ≠ [] := by
  refine ⟨⟨?_, fun h => ?_⟩, fun m hm => ?_, fun ds hds => ?_⟩
  · rintro ⟨m, hm⟩
    exact wellFormed_of_errors (Builder.finish_eq_ok_iff.1 hm).1
  · exact ⟨_, Builder.finish_eq_ok_iff.2 ⟨h.errors_eq_nil, rfl⟩⟩
  · obtain ⟨-, rfl⟩ := Builder.finish_eq_ok_iff.1 hm
    exact ⟨rfl, rfl, rfl, b.withCaptures_extended⟩
  · obtain ⟨hne, hperm⟩ := Builder.finish_eq_error hds
    rintro rfl
    exact hne (List.map_eq_nil_iff.1 hperm.nil_eq.symm)

namespace ClosureCycle

/-- Closure `c` with a body that makes the closures `cs`. -/
def closure (c : Name) (cs : List FunctionId) : Function where
  name := c
  visibility := .ownUnit
  kind := .closure
  span := .dummy
  body := some (.mk (cs.map fun c => .expr (.closure c .dummy) .dummy) .dummy)

/-- A function makes a closure that makes another. -/
def chain : Builder where
  name := ⟨1⟩
  functions :=
    [{ closure ⟨2⟩ [⟨1⟩] with kind := .topLevel }, closure ⟨3⟩ [⟨2⟩], closure ⟨4⟩ []]

/-- Two closures make each other, and a function outside of them makes none. -/
def circle : Builder where
  name := ⟨1⟩
  functions :=
    [{ closure ⟨2⟩ [] with kind := .topLevel }, closure ⟨3⟩ [⟨2⟩], closure ⟨4⟩ [⟨1⟩]]

end ClosureCycle

open ClosureCycle in
-- In both units every closure is made once; only in the first is it made by a function in the end.
theorem finish_iff_wellFormed_circle :
    WellFormed chain.functions ∧ ¬ WellFormed circle.functions := by
  refine ⟨(finish_iff_wellFormed chain .initial).1.1 ⟨_, rfl⟩, fun h => ?_⟩
  obtain ⟨m, hm⟩ := (finish_iff_wellFormed circle .initial).1.2 h
  cases (Builder.finish_eq_ok_iff.1 hm).1

end LateBind

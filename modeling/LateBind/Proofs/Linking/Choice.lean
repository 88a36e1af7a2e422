import LateBind.Proofs.Linking.OwnCalls
import LateBind.Proofs.Linking.Siblings

/-!
# Which function a plain call goes to

A plain call looks through units: its own first, then the imports in turn. Of what it sees there it
takes a function of exactly the right number of parameters before one that collects the rest, and of
each sort the first. So it matters neither that a unit is looked through again nor what is registered
under other names.
-/

namespace LateBind

/-! ## 1. Looking through a list again -/

/-- `Trimmed seen l l'`: `l'` is what is left of `l` once some elements are left out that are among
`seen` or stand in `l` before. -/
inductive Trimmed {α : Type} : List α → List α → List α → Prop where
  | nil {seen : List α} : Trimmed seen [] []
  | keep {seen l l' : List α} {a : α} : Trimmed (a :: seen) l l' → Trimmed seen (a :: l) (a :: l')
  | leave {seen l l' : List α} {a : α} : a ∈ seen → Trimmed seen l l' → Trimmed seen (a :: l) l'

theorem trimmed_filter {seen : List Name} {unit : Name} (h : unit ∈ seen) (l : List Name) :
    Trimmed seen l (l.filter (· ≠ unit)) := by
  induction l generalizing seen with
  | nil => exact .nil
  | cons k l ih =>
    by_cases hk : k = unit
    · subst hk
      simpa using Trimmed.leave h (ih h)
    · simpa [hk] using Trimmed.keep (ih (List.mem_cons_of_mem k h))

/-- What is left out would not have been found: it was not where it was looked for before. -/
theorem Trimmed.find?_flatMap {α β : Type} {seen l l' : List α} (h : Trimmed seen l l')
    {f : α → List β} {p : β → Bool} (hseen : ∀ a ∈ seen, (f a).find? p = none) :
    (l'.flatMap f).find? p = (l.flatMap f).find? p := by
  induction h with
  | nil => rfl
  | @keep seen l l' a _ ih =>
    rw [List.flatMap_cons, List.flatMap_cons, List.find?_append, List.find?_append]
    cases ha : (f a).find? p with
    | some b => rfl
    | none => rw [ih (List.forall_mem_cons.2 ⟨ha, hseen⟩)]
  | @leave seen l l' a hmem _ ih =>
    rw [ih hseen, List.flatMap_cons, List.find?_append, hseen a hmem, Option.none_or]

-- What is found comes from the first place that has anything of the kind.
theorem idxOf_le_of_find?_flatMap {f : Name → List Entry} {p : Entry → Bool}
    (hf : ∀ k, ∀ e ∈ f k, e.module = k) {l : List Name} {e e' : Entry}
    (h : (l.flatMap f).find? p = some e) (he' : e' ∈ l.flatMap f) (hp : p e' = true) :
    l.idxOf e.module ≤ l.idxOf e'.module := by
  obtain ⟨k', hk', hmem⟩ := List.mem_flatMap.1 he'
  rw [hf k' e' hmem]
  clear he'
  induction l with
  | nil => cases hk'
  | cons k l ih =>
    rw [List.flatMap_cons, List.find?_append] at h
    cases hk : (f k).find? p with
    | some x =>
      rw [hk, Option.some_or] at h
      cases h
      rw [hf k e (List.mem_of_find?_eq_some hk), List.idxOf_cons_self]
      exact Nat.zero_le _
    | none =>
      rw [hk, Option.none_or] at h
      have hne : k ≠ k' := by
        rintro rfl
        exact List.find?_eq_none.1 hk e' hmem hp
      rw [List.idxOf_cons_ne _ hne]
      refine Nat.le_trans ?_ (Nat.succ_le_succ (ih h ((List.mem_cons.1 hk').resolve_left hne.symm)))
      rw [List.idxOf_cons]
      cases k == e.module <;> simp

/-! ## 2. What a call sees -/

namespace Entry

/-- Where the unit of an entry stands among those that a call looks through: the calling unit, then
its imports. -/
def origin (unit : Name) (imports : List Name) (e : Entry) : Nat := (unit :: imports).idxOf e.module

end Entry

namespace Registry

variable {r : Registry} {unit : Name} {imports : List Name} {name : Name} {args : Nat} {e : Entry}

/-- A plain call of `name` in `unit` sees `e`: it is registered under that name, by the unit itself or
by an import that exports it. -/
structure Sees (r : Registry) (unit : Name) (imports : List Name) (name : Name) (e : Entry) :
    Prop where
  registered : e ∈ r.functions
  named : e.name = name
  visible : e.module = unit ∨ e.isExported = true ∧ e.module ∈ imports

/-- What a call in `unit` finds under `name` in one unit that it looks through. -/
def offered (r : Registry) (unit name k : Name) : List Entry :=
  (r.functionsOf k).filter fun e => (k = unit || e.isExported) && e.name = name

theorem mem_offered {k : Name} : e ∈ r.offered unit name k ↔
    e ∈ r.functions ∧ e.module = k ∧ (k = unit ∨ e.isExported = true) ∧ e.name = name := by
  simp only [offered, functionsOf, List.mem_filter, Bool.and_eq_true, Bool.or_eq_true,
    decide_eq_true_eq, and_assoc]

theorem mem_flatMap_offered :
    e ∈ (unit :: imports).flatMap (r.offered unit name) ↔ r.Sees unit imports name e := by
  rw [List.mem_flatMap]
  constructor
  · rintro ⟨k, hk, he⟩
    obtain ⟨hregistered, rfl, hvisible, hname⟩ := mem_offered.1 he
    refine ⟨hregistered, hname, ?_⟩
    rcases List.mem_cons.1 hk with hunit | himport
    · exact .inl hunit
    · exact hvisible.imp_right fun hexported => ⟨hexported, himport⟩
  · rintro ⟨hregistered, hname, hunit | ⟨hexported, himport⟩⟩
    · exact ⟨unit, List.mem_cons_self, mem_offered.2 ⟨hregistered, hunit, .inl rfl, hname⟩⟩
    · exact ⟨e.module, List.mem_cons_of_mem _ himport,
        mem_offered.2 ⟨hregistered, rfl, .inr hexported, hname⟩⟩

theorem candidates_eq :
    r.candidates unit imports name =
      (unit :: imports.filter (· ≠ unit)).flatMap (r.offered unit name) := by
  have hown : r.offered unit name unit = (r.functionsOf unit).filter (·.name = name) := by
    simp [offered]
  have himported : (imports.filter (· ≠ unit)).flatMap (r.offered unit name) =
      (imports.filter (· ≠ unit)).flatMap fun k =>
        ((r.functionsOf k).filter (·.isExported)).filter (·.name = name) := by
    refine List.flatMap_congr fun k hk => ?_
    have hne : k ≠ unit := of_decide_eq_true (List.mem_filter.1 hk).2
    rw [List.filter_filter, offered]
    refine List.filter_congr fun e _ => ?_
    rw [decide_eq_false hne, Bool.false_or, Bool.and_comm]
  rw [List.flatMap_cons, hown, himported, candidates, List.filter_append, List.filter_flatMap,
    List.filter_flatMap]

/-- The first function with the property `p` that a call of `name` comes upon. -/
def firstSeen? (r : Registry) (unit : Name) (imports : List Name) (name : Name)
    (p : Entry → Bool) : Option Entry :=
  ((unit :: imports).flatMap (r.offered unit name)).find? p

theorem firstSeen?_trimmed {imports' : List Name} (h : Trimmed [unit] imports imports')
    (p : Entry → Bool) :
    r.firstSeen? unit imports' name p = r.firstSeen? unit imports name p :=
  (Trimmed.keep h).find?_flatMap fun _ hk => absurd hk List.not_mem_nil

/-- A call takes the first function that fits exactly, else the first that collects. -/
theorem function?_eq_firstSeen? :
    r.function? unit imports name args =
      (r.firstSeen? unit imports name (Entry.exact args)).or
        (r.firstSeen? unit imports name (Entry.collects args)) := by
  have hown := trimmed_filter (List.mem_singleton_self unit) imports
  rw [← firstSeen?_trimmed hown, ← firstSeen?_trimmed hown, function?, candidates_eq]
  rfl

theorem firstSeen?_eq_none_iff {p : Entry → Bool} :
    r.firstSeen? unit imports name p = none ↔
      ∀ e, r.Sees unit imports name e → p e = false := by
  simp only [firstSeen?, List.find?_eq_none, mem_flatMap_offered, Bool.not_eq_true]

theorem firstSeen?_eq_some {p : Entry → Bool} (h : r.firstSeen? unit imports name p = some e) :
    r.Sees unit imports name e ∧ p e = true ∧
      ∀ e', r.Sees unit imports name e' → p e' = true →
        e.origin unit imports ≤ e'.origin unit imports := by
  refine ⟨mem_flatMap_offered.1 (List.mem_of_find?_eq_some h), List.find?_some h, fun e' he' hp => ?_⟩
  have hmodule : ∀ k, ∀ x ∈ r.offered unit name k, x.module = k := fun k x hx =>
    (mem_offered.1 hx).2.1
  exact idxOf_le_of_find?_flatMap hmodule h (mem_flatMap_offered.2 he') hp

/-! ## 3. What a call takes -/

theorem function?_eq_none_iff : r.function? unit imports name args = none ↔
    ∀ e, r.Sees unit imports name e → e.accepts args = false := by
  rw [function?_eq_firstSeen?, Option.or_eq_none_iff, firstSeen?_eq_none_iff, firstSeen?_eq_none_iff]
  simp only [Entry.accepts_eq, Bool.or_eq_false_iff, imp_and, forall_and]

/-- What is taken is seen and accepts the call. It collects only where nothing fits exactly, and its
unit is the first to offer a function of its sort. -/
theorem function?_eq_some (h : r.function? unit imports name args = some e) :
    r.Sees unit imports name e ∧ e.accepts args = true ∧
      (e.varargs = true → ∀ e', r.Sees unit imports name e' → e'.varargs = false →
        e'.accepts args = false) ∧
      ∀ e', r.Sees unit imports name e' → e'.accepts args = true → e'.varargs = e.varargs →
        e.origin unit imports ≤ e'.origin unit imports := by
  rw [function?_eq_firstSeen?] at h
  rcases Option.or_eq_some_iff.1 h with h | ⟨hnone, h⟩
  · obtain ⟨hsees, hexact, hfirst⟩ := firstSeen?_eq_some h
    obtain ⟨hfixed, haccepts⟩ := Entry.exact_eq_true_iff.1 hexact
    refine ⟨hsees, haccepts, fun hvarargs => ?_, fun e' he' haccepts' hsort => ?_⟩
    · rw [hfixed] at hvarargs
      cases hvarargs
    · exact hfirst e' he' (Entry.exact_eq_true_iff.2 ⟨hsort.trans hfixed, haccepts'⟩)
  · obtain ⟨hsees, hcollects, hfirst⟩ := firstSeen?_eq_some h
    obtain ⟨hvarargs, haccepts⟩ := Entry.collects_eq_true_iff.1 hcollects
    refine ⟨hsees, haccepts, fun _ e' he' hfixed => ?_, fun e' he' haccepts' hsort => ?_⟩
    · have hinexact := firstSeen?_eq_none_iff.1 hnone e' he'
      rw [Entry.accepts_eq, hinexact, Entry.collects, hfixed]
      rfl
    · exact hfirst e' he' (Entry.collects_eq_true_iff.2 ⟨hsort.trans hvarargs, haccepts'⟩)

theorem function?_trimmed {imports' : List Name} (h : Trimmed [unit] imports imports') :
    r.function? unit imports' name args = r.function? unit imports name args := by
  simp only [function?_eq_firstSeen?, firstSeen?_trimmed h]

/-- Only what the units that a call looks through have registered matters to it. -/
theorem function?_of_without {r' : Registry}
    (h : Without (fun e => e.module ≠ unit ∧ e.module ∉ imports) r'.functions r.functions) :
    r'.function? unit imports name args = r.function? unit imports name args := by
  have hregistered : ∀ k, k = unit ∨ k ∈ imports → r'.functionsOf k = r.functionsOf k := by
    intro k hk
    refine h.filter_eq fun e he => decide_eq_false ?_
    rintro rfl
    exact hk.elim he.1 he.2
  exact function?_congr (hregistered unit (.inl rfl)) fun k hk => hregistered k (.inr hk)

end Registry

/-- **Plain calls choose by visibility, then arity, then origin.** Whatever is registered, a call of
`name` in `unit` finds a function just if it sees one that accepts the arguments. It takes one that it
sees and that accepts them. Where it sees one of exactly the right number of parameters it takes none
that collects the rest. Of each sort it takes none from an import if its own unit has one, and none
from a later import if an earlier one has one. Imports that are repeated, or are the unit itself, make
no difference, and neither does what other units have registered, in whatever order. -/
theorem plain_call_choice (r : Registry) (unit : Name) (imports : List Name) (name : Name)
    (args : Nat) :
    ((∃ e, r.function? unit imports name args = some e) ↔
      ∃ e, r.Sees unit imports name e ∧ e.accepts args = true) ∧
    (∀ e, r.function? unit imports name args = some e →
      r.Sees unit imports name e ∧ e.accepts args = true ∧
      (e.varargs = true → ∀ e', r.Sees unit imports name e' → e'.varargs = false →
        e'.accepts args = false) ∧
      ∀ e', r.Sees unit imports name e' → e'.accepts args = true → e'.varargs = e.varargs →
        e.origin unit imports ≤ e'.origin unit imports) ∧
    (∀ imports', Trimmed [unit] imports imports' →
      r.function? unit imports' name args = r.function? unit imports name args) ∧
    ∀ r' : Registry,
      Without (fun e => e.module ≠ unit ∧ e.module ∉ imports) r'.functions r.functions →
      r'.function? unit imports name args = r.function? unit imports name args := by
  refine ⟨⟨?_, ?_⟩, fun e => Registry.function?_eq_some, fun imports' => Registry.function?_trimmed,
    fun r' => Registry.function?_of_without⟩
  · rintro ⟨e, he⟩
    obtain ⟨hsees, haccepts, -⟩ := Registry.function?_eq_some he
    exact ⟨e, hsees, haccepts⟩
  · rintro ⟨e, hsees, haccepts⟩
    refine Option.ne_none_iff_exists'.1 fun hnone => Bool.false_ne_true ?_
    exact (Registry.function?_eq_none_iff.1 hnone e hsees).symm.trans haccepts

-- A unit's own function collects only the calls that no import's function fits.
example :
    let own : Entry := ⟨⟨1⟩, ⟨0⟩, ⟨9⟩, .ownUnit, .topLevel, 1, true⟩
    let imported : Entry := ⟨⟨2⟩, ⟨0⟩, ⟨9⟩, .anyUnit, .topLevel, 2, false⟩
    let r : Registry := { functions := [own, imported] }
    r.function? ⟨1⟩ [⟨2⟩] ⟨9⟩ 2 = some imported ∧ r.function? ⟨1⟩ [⟨2⟩] ⟨9⟩ 3 = some own := by
  decide

end LateBind

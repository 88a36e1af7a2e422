import LateBind.Proofs.Linking.DirectCalls

/-!
# Calls of a unit's own functions

A session keeps what it has registered. When a unit is compiled under a name that an earlier unit
was published under, a plain call can go to a function of that earlier unit, and the number in the
link is then one of the earlier unit's functions. The link still fits the unit that is compiled
where no call is overtaken in this way.
-/

namespace LateBind

/-! ## 1. Functions published under one name -/

namespace Function

/-- Has exactly so many user parameters, none of which collects the rest. -/
def exact (args : Nat) (f : Function) : Bool := !f.varargs && f.userArity == args

/-- Takes so many arguments by collecting the rest. -/
def collects (args : Nat) (f : Function) : Bool := f.varargs && f.accepts args

end Function

/-- The top-level functions called `n` of all units among `ms` that have the name `unit`, with their
numbers there, in order of publication. -/
def namedUnder (ms : List Module) (unit n : Name) : List (FunctionId × Function) :=
  ((ms.filter (·.name = unit)).flatMap fun m => numbered m.functions).filter fun e =>
    e.2.kind = .topLevel && e.2.name = n

theorem mem_namedUnder {ms : List Module} {unit n : Name} {id : FunctionId} {f : Function} :
    (id, f) ∈ namedUnder ms unit n ↔ (∃ m ∈ ms, m.name = unit ∧ m.function? id = some f) ∧
      f.kind = .topLevel ∧ f.name = n := by
  simp only [namedUnder, List.mem_filter, List.mem_flatMap, mem_numbered, Bool.and_eq_true,
    decide_eq_true_eq, and_assoc]
  rfl

namespace Registry

theorem functions_ofModule (m : Module) :
    (ofModule m).functions =
      ((numbered m.functions).filter (·.2.kind = .topLevel)).map fun e =>
        .ofFunction m.name e.1 e.2 := by
  rw [ofModule_eq]
  dsimp only
  induction numbered m.functions with
  | nil => rfl
  | cons e rest ih =>
    rw [List.flatMap_cons, ih, List.filter_cons]
    unfold addOf
    cases hkind : e.2.kind with
    | topLevel => simp [addFunction]
    | closure => simp
    | extension => cases e.2.target <;> simp [addExtension]

variable {ms : List Module} {unit n : Name} {args : Nat}

-- What is registered under a name is what was published under it.
theorem filter_functionsOf (ms : List Module) (unit n : Name) :
    ((ms.foldl addModule {}).functionsOf unit).filter (·.name = n) =
      (namedUnder ms unit n).map fun e => .ofFunction unit e.1 e.2 := by
  have hunit : ((ms.filter (·.name = unit)).flatMap fun m => (ofModule m).functions) =
      (ms.filter (·.name = unit)).flatMap fun m =>
        ((numbered m.functions).filter (·.2.kind = .topLevel)).map fun e =>
          .ofFunction unit e.1 e.2 := by
    refine List.flatMap_congr fun m hm => ?_
    rw [functions_ofModule, of_decide_eq_true (List.mem_filter.1 hm).2]
  rw [functionsOf_foldl, hunit]
  show List.filter _ ([] ++ _) = _
  rw [List.nil_append, namedUnder, List.filter_flatMap, List.filter_flatMap, List.map_flatMap]
  refine List.flatMap_congr fun m _ => ?_
  rw [List.filter_map, List.filter_filter]
  exact congrArg _ (List.filter_congr fun e _ => Bool.and_comm _ _)

/-! ## 2. Which entry a call finds -/

theorem find?_functionsOf (ms : List Module) (unit n : Name) {p : Entry → Bool}
    (q : Function → Bool) (hpq : ∀ id f, p (.ofFunction unit id f) = q f) :
    (((ms.foldl addModule {}).functionsOf unit).filter (·.name = n)).find? p =
      ((namedUnder ms unit n).find? (q ·.2)).map fun e => .ofFunction unit e.1 e.2 := by
  rw [filter_functionsOf, List.find?_map]
  congr 2
  funext e
  exact hpq e.1 e.2

/-- What a plain call can mean outside of its own unit. -/
def importedCandidates (r : Registry) (unit : Name) (imports : List Name) (n : Name) : List Entry :=
  (((imports.filter (· ≠ unit)).flatMap r.functionsOf).filter (·.isExported)).filter (·.name = n)

theorem mem_importedCandidates {imports : List Name} {e : Entry} :
    e ∈ (ms.foldl addModule {}).importedCandidates unit imports n ↔
      ∃ k ∈ imports, k ≠ unit ∧ ∃ p ∈ namedUnder ms k n, p.2.visibility = .anyUnit ∧
        e = .ofFunction k p.1 p.2 := by
  have hkey : ∀ k, (e ∈ (ms.foldl addModule {}).functionsOf k ∧ e.name = n) ↔
      ∃ p ∈ namedUnder ms k n, e = .ofFunction k p.1 p.2 := by
    intro k
    have hmem : (e ∈ (ms.foldl addModule {}).functionsOf k ∧ e.name = n) ↔
        e ∈ ((ms.foldl addModule {}).functionsOf k).filter (·.name = n) := by
      rw [List.mem_filter, decide_eq_true_eq]
    rw [hmem, filter_functionsOf, List.mem_map]
    exact exists_congr fun p => and_congr_right fun _ => eq_comm
  simp only [importedCandidates, List.mem_filter, List.mem_flatMap, decide_eq_true_eq]
  constructor
  · rintro ⟨⟨⟨k, ⟨hk, hne⟩, he⟩, hexported⟩, hname⟩
    obtain ⟨p, hp, rfl⟩ := (hkey k).1 ⟨he, hname⟩
    exact ⟨k, hk, hne, p, hp, of_decide_eq_true (Bool.and_eq_true_iff.1 hexported).1, rfl⟩
  · rintro ⟨k, hk, hne, p, hp, hvisible, rfl⟩
    obtain ⟨he, hname⟩ := (hkey k).2 ⟨p, hp, rfl⟩
    refine ⟨⟨⟨k, ⟨hk, hne⟩, he⟩, ?_⟩, hname⟩
    have hkind : p.2.kind = .topLevel := (mem_namedUnder.1 hp).2.1
    simp [Entry.isExported, Entry.ofFunction, hvisible, hkind]

-- No import is the unit itself.
theorem module_ne_of_imported {imports : List Name} {e : Entry}
    (h : e ∈ (ms.foldl addModule {}).importedCandidates unit imports n) : e.module ≠ unit := by
  obtain ⟨k, -, hne, p, -, -, rfl⟩ := mem_importedCandidates.1 h
  exact hne

theorem find?_imported_eq_none_iff {imports : List Name} :
    ((ms.foldl addModule {}).importedCandidates unit imports n).find? (Entry.exact args) = none ↔
      ∀ k ∈ imports, k ≠ unit → ∀ p ∈ namedUnder ms k n, p.2.visibility = .anyUnit →
        p.2.exact args = false := by
  rw [List.find?_eq_none]
  constructor
  · intro h k hk hne p hp hvisible
    exact Bool.not_eq_true _ ▸ h _ (mem_importedCandidates.2 ⟨k, hk, hne, p, hp, hvisible, rfl⟩)
  · intro h x hx
    obtain ⟨k, hk, hne, p, hp, hvisible, rfl⟩ := mem_importedCandidates.1 hx
    exact Bool.not_eq_true _ ▸ h k hk hne p hp hvisible

theorem function?_eq (r : Registry) (unit : Name) (imports : List Name) (n : Name) (args : Nat) :
    r.function? unit imports n args =
      ((((r.functionsOf unit).filter (·.name = n)).find? (Entry.exact args)).or
        ((r.importedCandidates unit imports n).find? (Entry.exact args))).or
      ((((r.functionsOf unit).filter (·.name = n)).find? (Entry.collects args)).or
        ((r.importedCandidates unit imports n).find? (Entry.collects args))) := by
  rw [← List.find?_append, ← List.find?_append, importedCandidates, ← List.filter_append]
  rfl

/-- A plain call goes to a function under the name of its unit in two cases: one of those fits
exactly, or nothing that can be meant does and one of those collects. It goes to the first. -/
theorem function?_own_iff {imports : List Name} {e : Entry} :
    ((ms.foldl addModule {}).function? unit imports n args = some e ∧ e.module = unit) ↔
      (∃ p, (namedUnder ms unit n).find? (·.2.exact args) = some p ∧
        e = .ofFunction unit p.1 p.2) ∨
      (∀ p ∈ namedUnder ms unit n, p.2.exact args = false) ∧
        (∀ k ∈ imports, k ≠ unit → ∀ p ∈ namedUnder ms k n, p.2.visibility = .anyUnit →
          p.2.exact args = false) ∧
        ∃ p, (namedUnder ms unit n).find? (·.2.collects args) = some p ∧
          e = .ofFunction unit p.1 p.2 := by
  have hown : (namedUnder ms unit n).find? (·.2.exact args) = none ↔
      ∀ p ∈ namedUnder ms unit n, p.2.exact args = false := by
    simp only [List.find?_eq_none, Bool.not_eq_true]
  rw [function?_eq, find?_functionsOf ms unit n (Function.exact args) fun _ _ => rfl,
    find?_functionsOf ms unit n (Function.collects args) fun _ _ => rfl,
    ← find?_imported_eq_none_iff, ← hown]
  constructor
  · rintro ⟨hfound, hmodule⟩
    rcases Option.or_eq_some_iff.1 hfound with hexact | ⟨hnoexact, hcollects⟩
    · rcases Option.or_eq_some_iff.1 hexact with h | ⟨-, h⟩
      · obtain ⟨p, hp, rfl⟩ := Option.map_eq_some_iff.1 h
        exact .inl ⟨p, hp, rfl⟩
      · exact absurd hmodule (module_ne_of_imported (List.mem_of_find?_eq_some h))
    · obtain ⟨hownnone, himportednone⟩ := Option.or_eq_none_iff.1 hnoexact
      rcases Option.or_eq_some_iff.1 hcollects with h | ⟨-, h⟩
      · obtain ⟨p, hp, rfl⟩ := Option.map_eq_some_iff.1 h
        exact .inr ⟨Option.map_eq_none_iff.1 hownnone, himportednone, p, hp, rfl⟩
      · exact absurd hmodule (module_ne_of_imported (List.mem_of_find?_eq_some h))
  · rintro (⟨p, hp, rfl⟩ | ⟨hownnone, himportednone, p, hp, rfl⟩)
    · exact ⟨by rw [hp]; rfl, rfl⟩
    · exact ⟨by rw [hownnone, himportednone, hp]; rfl, rfl⟩

end Registry

/-! ## 3. Overtaken calls -/

/-- Function `id` of `u` is called `n` and takes `args` arguments. -/
def Module.Serves (u : Module) (id : FunctionId) (n : Name) (args : Nat) : Prop :=
  ∃ g, u.function? id = some g ∧ g.name = n ∧ g.accepts args = true

/-- A plain call of `n` in `u` goes to a function under the name of `u` that another of the units
`ms` was published with, and its number is not one of such a function in `u`. -/
inductive Overtaken (ms : List Module) (u : Module) (n : Name) (args : Nat) : Prop where
  | exact {id : FunctionId} {g : Function} :
      (namedUnder ms u.name n).find? (·.2.exact args) = some (id, g) →
      ¬u.Serves id n args → Overtaken ms u n args
  /-- Nothing fits exactly, under that name or exported by an import. -/
  | collects {id : FunctionId} {g : Function} :
      (∀ p ∈ namedUnder ms u.name n, p.2.exact args = false) →
      (∀ k ∈ u.imports, k ≠ u.name → ∀ p ∈ namedUnder ms k n, p.2.visibility = .anyUnit →
        p.2.exact args = false) →
      (namedUnder ms u.name n).find? (·.2.collects args) = some (id, g) →
      ¬u.Serves id n args → Overtaken ms u n args

section Overtaken

variable {ms : List Module} {u : Module} {n : Name} {args : Nat}

theorem Function.accepts_of_exact {f : Function} (hf : f.exact args = true) :
    f.accepts args = true := by
  simp only [exact, Bool.and_eq_true, Bool.not_eq_true', beq_iff_eq] at hf
  simp [accepts, signatureAccepts, hf.1, hf.2]

theorem Function.accepts_of_collects {f : Function} (hf : f.collects args = true) :
    f.accepts args = true :=
  (Bool.and_eq_true_iff.1 hf).2

theorem overtaken_iff : Overtaken ms u n args ↔
    ∃ e, (ms.foldl Registry.addModule {}).function? u.name u.imports n args = some e ∧
      e.module = u.name ∧ ¬u.Serves e.function n args := by
  constructor
  · rintro (⟨hp, hnot⟩ | ⟨hnone, himports, hp, hnot⟩)
    · obtain ⟨he, hmodule⟩ := Registry.function?_own_iff.2 (.inl ⟨_, hp, rfl⟩)
      exact ⟨_, he, hmodule, hnot⟩
    · obtain ⟨he, hmodule⟩ := Registry.function?_own_iff.2 (.inr ⟨hnone, himports, _, hp, rfl⟩)
      exact ⟨_, he, hmodule, hnot⟩
  · rintro ⟨e, he, hmodule, hnot⟩
    rcases Registry.function?_own_iff.1 ⟨he, hmodule⟩ with
      ⟨p, hp, rfl⟩ | ⟨hnone, himports, p, hp, rfl⟩
    · exact .exact hp hnot
    · exact .collects hnone himports hp hnot

/-- Under a name that was published once no call is overtaken. -/
theorem not_overtaken_of_unique (honce : ∀ m ∈ ms, m.name = u.name → m = u) :
    ¬Overtaken ms u n args := by
  -- Whatever is found is a function of `u`.
  have hserves : ∀ {id g}, (id, g) ∈ namedUnder ms u.name n → g.accepts args = true →
      u.Serves id n args := by
    intro id g hmem haccepts
    obtain ⟨⟨m, hm, hname, hg⟩, -, hn⟩ := mem_namedUnder.1 hmem
    rw [honce m hm hname] at hg
    exact ⟨g, hg, hn, haccepts⟩
  rintro (⟨hp, hnot⟩ | ⟨-, -, hp, hnot⟩)
  · have hexact := List.find?_some hp
    exact hnot (hserves (List.mem_of_find?_eq_some hp) (Function.accepts_of_exact hexact))
  · have hcollects := List.find?_some hp
    exact hnot (hserves (List.mem_of_find?_eq_some hp) (Function.accepts_of_collects hcollects))

-- A call of a binding goes to no function.
theorem LinkContext.not_direct {c : LinkContext} {s : CallSiteId} {t : FunctionTarget} :
    c.resolveCall? n args s true ≠ some (.direct t) := by
  unfold resolveCall?
  rw [if_pos rfl]
  intro h
  obtain ⟨x, -, hx⟩ := Option.map_eq_some_iff.1 h
  cases hx

end Overtaken

/-- **Own calls link into the unit, unless overtaken.** In a unit that compiles, and has a site for each
call, every direct link of a plain call to a function under the unit's own name is one to a function of
that unit, with the name that was called and for the arguments written, if and only if no plain call is
overtaken by another unit published under the name. -/
theorem own_calls_linked_iff {config : QueueConfig} {past : List (Interner × List Builder)}
    {names : Interner} {units : List Builder} {i : Nat} {b : Builder} {u : CompiledUnit}
    (hb : units[i]? = some b) (hdistinct : b.Distinct)
    (hu : ((Session.after config past).compileUnits names units).1[i]? = some (.ok u)) :
    (∀ id f bs n args s r sp t, u.module.function? id = some f → f.Holds bs (.call n args s r sp) →
      u.resolutions.get? s = some (.direct t) → t.module = u.module.name →
      u.module.Serves t.function n args.length) ↔
    ∀ id f bs n args s sp, u.module.function? id = some f → f.Holds bs (.call n args s false sp) →
      ¬Overtaken (Session.published (past.flatMap (·.2) ++ units)) u.module n args.length := by
  obtain ⟨m, hm, -, rfl⟩ := Session.exists_of_compileUnits hb hu
  rw [Session.registry_register_after]
  constructor
  · intro h id f bs n args s sp hf hd hovertaken
    obtain ⟨e, he, hmodule, hnot⟩ := overtaken_iff.1 hovertaken
    refine hnot (h id f bs n args s false sp e.toTarget hf hd ?_ hmodule)
    rw [Builder.get?_resolutions hdistinct hm _ (hd.mem_marks hf rfl), LinkContext.resolveCall?]
    simp only [Module.linkContext, he]
    rfl
  · intro h id f bs n args s r sp t hf hd ht hmodule
    rw [Builder.get?_resolutions hdistinct hm _ (hd.mem_marks hf rfl)] at ht
    cases r with
    | true => exact absurd ht LinkContext.not_direct
    | false =>
      obtain ⟨e, he, hte⟩ | ⟨x, -, hte⟩ := LinkContext.resolveCall?_cases ht <;> cases hte
      by_contra hnot
      exact h id f bs n args s sp hf hd (overtaken_iff.2 ⟨e, he, hmodule, hnot⟩)

namespace Resubmitted

/-- A function that does nothing. -/
def callee (id : FunctionId) : List Command :=
  [.declare ⟨2⟩ .anyUnit .topLevel .dummy, .edit id (.body (.mk [] .dummy))]

/-- A function of one expression. -/
def caller (id : FunctionId) (e : Expr) : List Command :=
  [.declare ⟨3⟩ .anyUnit .topLevel .dummy, .edit id (.body (.mk [.expr e .dummy] .dummy))]

def call : Expr := .call ⟨2⟩ [] ⟨0⟩ false .dummy

def build (cs : List Command) : Builder := (Builder.ofName ⟨1⟩).performAll cs

/-- A unit that is published and then fails: the caller reads a name that nothing binds. -/
def faulty : Builder := build (callee ⟨0⟩ ++ caller ⟨1⟩ (.reference ⟨4⟩ .dummy))

/-- The caller calls the other function instead. -/
def corrected : Builder := build (callee ⟨0⟩ ++ caller ⟨1⟩ call)

/-- The same, with the functions declared the other way round. -/
def reordered : Builder := build (caller ⟨0⟩ call ++ callee ⟨1⟩)

def past : List (Interner × List Builder) := [(.initial, [faulty])]

def unit (b : Builder) : CompiledUnit :=
  let m : Module := ⟨b.name, b.imports, b.withCaptures, b.nextSite⟩
  ⟨m, m.locals, m.resolutions ((Session.after {} past).register [b]).registry⟩

end Resubmitted

open Resubmitted in
-- What is found is the old function, and it has the number of the new one.
theorem own_calls_linked_iff_corrected :
    ((Session.after {} past).compileUnits .initial [corrected]).1[0]? =
        some (.ok (unit corrected)) ∧
      (unit corrected).resolutions.get? ⟨0⟩ = some (.direct ⟨⟨1⟩, ⟨0⟩, .topLevel, false⟩) ∧
      (unit corrected).module.Serves ⟨0⟩ ⟨2⟩ 0 := by
  have hb : [corrected][0]? = some corrected := rfl
  have hdistinct : corrected.Distinct := Builder.distinct_performAll ⟨1⟩ _
  have hu : ((Session.after {} past).compileUnits .initial [corrected]).1[0]? =
      some (.ok (unit corrected)) := rfl
  have hmarks : (unit corrected).module.marks = [.call ⟨2⟩ 0 ⟨0⟩ false .dummy] := rfl
  have hserves : (unit corrected).module.Serves ⟨0⟩ ⟨2⟩ 0 := ⟨_, rfl, rfl, rfl⟩
  obtain ⟨f, hf⟩ : ∃ f, (unit corrected).module.function? ⟨1⟩ = some f := ⟨_, rfl⟩
  have hcall : f.Holds [[], f.paramSlots] call := by
    cases hf
    exact ⟨_, _, .only rfl, List.mem_cons_self, .self⟩
  have hget : (unit corrected).resolutions.get? ⟨0⟩ =
      some (.direct ⟨⟨1⟩, ⟨0⟩, .topLevel, false⟩) := rfl
  have hlinked := (own_calls_linked_iff hb hdistinct hu).2 ?_
  · exact ⟨hu, hget, hlinked ⟨1⟩ f _ ⟨2⟩ [] ⟨0⟩ false .dummy _ hf hcall hget rfl⟩
  · intro id f bs n args s sp hf hd
    have hmark := hd.mem_marks hf rfl
    rw [hmarks, List.mem_singleton] at hmark
    obtain ⟨rfl, hargs, -, -, -⟩ := Mark.call.inj hmark
    rw [hargs]
    rintro (⟨hp, hnot⟩ | ⟨hnone, -, -, -⟩)
    · cases hp
      exact hnot hserves
    · exact absurd (hnone (⟨0⟩, _) List.mem_cons_self) (by decide)

open Resubmitted in
/-- Where the numbers have changed, the call goes to the caller itself. -/
theorem own_calls_stale :
    ∃ f bs, .ok (unit reordered) ∈ ((Session.after {} past).compileUnits .initial [reordered]).1 ∧
      (unit reordered).module.function? ⟨0⟩ = some f ∧ f.Holds bs call ∧
      (unit reordered).resolutions.get? ⟨0⟩ = some (.direct ⟨⟨1⟩, ⟨0⟩, .topLevel, false⟩) ∧
      ¬(unit reordered).module.Serves ⟨0⟩ ⟨2⟩ 0 := by
  obtain ⟨f, hf⟩ : ∃ f, (unit reordered).module.function? ⟨0⟩ = some f := ⟨_, rfl⟩
  refine ⟨f, [[], f.paramSlots], List.mem_singleton.2 rfl, hf, ?_, rfl, ?_⟩
  · cases hf
    exact ⟨_, _, .only rfl, List.mem_cons_self, .self⟩
  · rintro ⟨g, hg, hname, -⟩
    cases hg
    exact absurd hname (by decide)

end LateBind

import LateBind.Proofs.Linking.Settings

/-!
# Units that do not matter to each other

All units of a batch are registered in one place, but a unit is compiled by little of it: what is
registered under its own name and under the names it imports, and the extensions. So a unit that is
not published, or that registers nothing of the kind, can be left out of a batch and the others are
compiled as before.
-/

namespace LateBind

/-! ## 1. Leaving units out of a batch -/

/-- `Without p l l'`: `l'` is what is left of `l` once some elements with the property `p` are left
out, each occurrence by itself. -/
inductive Without {α : Type} (p : α → Prop) : List α → List α → Prop where
  | nil : Without p [] []
  | keep {a : α} {l l' : List α} : Without p l l' → Without p (a :: l) (a :: l')
  | leave {a : α} {l l' : List α} : p a → Without p l l' → Without p (a :: l) l'

theorem Without.append {α : Type} {p : α → Prop} {k k' l l' : List α} (hk : Without p k k')
    (hl : Without p l l') : Without p (k ++ l) (k' ++ l') := by
  induction hk with
  | nil => exact hl
  | keep _ ih => exact .keep ih
  | leave ha _ ih => exact .leave ha ih

-- What is picked out stays the same where nothing that is left out is picked.
theorem Without.filter_eq {α : Type} {p : α → Prop} {l l' : List α} (h : Without p l l')
    {q : α → Bool} (hp : ∀ a, p a → q a = false) : l.filter q = l'.filter q := by
  induction h with
  | nil => rfl
  | keep _ ih => rw [List.filter_cons, List.filter_cons, ih]
  | leave ha _ ih => rw [List.filter_cons, hp _ ha, if_neg Bool.false_ne_true, ih]

-- What is put together from the published units stays the same where those left out add nothing.
theorem Without.flatMap_published {α : Type} {p : Builder → Prop} {us us' : List Builder}
    (h : Without p us us') {g : Module → List α}
    (hp : ∀ v m, p v → v.publish = .ok m → g m = []) :
    (Session.published us').flatMap g = (Session.published us).flatMap g := by
  have hcons : ∀ (v : Builder) (vs : List Builder), (Session.published (v :: vs)).flatMap g =
      (Session.published [v]).flatMap g ++ (Session.published vs).flatMap g := by
    intro v vs
    rw [← List.flatMap_append, ← Session.published_append, List.singleton_append]
  induction h with
  | nil => rfl
  | keep _ ih => rw [hcons, ih, ← hcons]
  | @leave v us us' hv _ ih =>
    have hnone : (Session.published [v]).flatMap g = [] := by
      rw [List.flatMap_eq_nil_iff]
      intro m hm
      obtain ⟨w, hw, hpublish⟩ := Session.mem_published.1 hm
      rw [List.mem_singleton.1 hw] at hpublish
      exact hp v m hv hpublish
    rw [ih, hcons, hnone, List.nil_append]

/-! ## 2. What a unit is compiled by -/

namespace Registry

/-- The registries `r` and `r'` hold the same functions under the name `unit` and under each of
`imports`, and offer `unit` the same methods. -/
structure AgreeFor (r r' : Registry) (unit : Name) (imports : List Name) : Prop where
  own : r.functionsOf unit = r'.functionsOf unit
  imported : ∀ k ∈ imports, r.functionsOf k = r'.functionsOf k
  methods : ∀ type name, r.methods unit type name = r'.methods unit type name

variable {r r' : Registry} {unit : Name} {imports : List Name}

-- A plain call goes by what is registered under the unit's name and under those of its imports.
theorem function?_congr {n : Name} {args : Nat} (hown : r.functionsOf unit = r'.functionsOf unit)
    (himported : ∀ k ∈ imports, r.functionsOf k = r'.functionsOf k) :
    r.function? unit imports n args = r'.function? unit imports n args := by
  have hflatMap : (imports.filter (· ≠ unit)).flatMap r.functionsOf =
      (imports.filter (· ≠ unit)).flatMap r'.functionsOf :=
    List.flatMap_congr fun k hk => himported k (List.mem_filter.1 hk).1
  rw [function?, function?, candidates, candidates, hown, hflatMap]

theorem AgreeFor.function?_eq (h : r.AgreeFor r' unit imports) (n : Name) (args : Nat) :
    r.function? unit imports n args = r'.function? unit imports n args :=
  function?_congr h.own h.imported

theorem AgreeFor.extension?_eq (h : r.AgreeFor r' unit imports) (type n : Name) (args : Nat) :
    r.extension? unit type n args = r'.extension? unit type n args := by
  rw [extension?, extension?, h.methods]

end Registry

/-- A unit is compiled alike in sessions that agree on what it can call. -/
theorem Session.compileUnit_eq_of_agreeFor {s t : Session} {names : Interner} {b : Builder}
    (hconfig : s.config = t.config) (h : s.registry.AgreeFor t.registry b.name b.imports) :
    s.compileUnit names b = t.compileUnit names b := by
  have hunit : ∀ m, b.finish names = .ok m →
      s.registry.AgreeFor t.registry m.name m.imports := by
    intro m hm
    obtain ⟨-, rfl⟩ := Builder.publish_eq_ok (Builder.publish_of_finish hm)
    exact h
  refine compileUnit_eq_of_lookups hconfig (fun m hm => (hunit m hm).function?_eq) fun m hm _ => ?_
  exact resolutions_eq_of_lookups (hunit m hm).function?_eq fun n args _ type _ _ =>
    (hunit m hm).extension?_eq type n args

/-! ## 3. Siblings -/

/-- Unit `v` of a batch is apart from unit `b`: it cannot be published, or it has another name than
`b`, which `b` does not import, and attaches no extension to a type. -/
inductive Builder.Apart (names : Interner) (b v : Builder) : Prop where
  | unpublished {reports : List Diagnostic} : v.finish names = .error reports → Apart names b v
  | unrelated : v.name ≠ b.name → v.name ∉ b.imports →
      (∀ f ∈ v.functions, f.kind = .extension → f.target = none) → Apart names b v

namespace Builder

variable {names : Interner} {b v : Builder} {m : Module}

-- A unit that is apart and published all the same is an unrelated one.
theorem Apart.of_publish (h : b.Apart names v) (hm : v.publish = .ok m) :
    m.name ≠ b.name ∧ m.name ∉ b.imports ∧ (Registry.ofModule m).extensions = [] := by
  cases h with
  | unpublished herror =>
    rw [finish, hm] at herror
    cases herror
  | unrelated hname himports htarget =>
    obtain ⟨-, rfl⟩ := publish_eq_ok hm
    refine ⟨hname, himports, List.eq_nil_iff_forall_not_mem.2 fun ⟨type, e⟩ he => ?_⟩
    obtain ⟨id, g, hg, hkind, hattached, -⟩ := Registry.mem_extensions_ofModule.1 he
    -- Its extension was one before names were captured.
    obtain ⟨f, hf, rfl⟩ := Option.map_eq_some_iff.1 ((v.getElem?_withCaptures id).symm.trans hg)
    have hnone : f.target = none := htarget f (List.mem_of_getElem? hf) hkind
    rw [show f.target = some type from hattached] at hnone
    cases hnone

end Builder

theorem Without.agreeFor {names : Interner} {b : Builder} {us us' : List Builder}
    (h : Without (b.Apart names) us us') (s : Session) :
    (s.register us').registry.AgreeFor (s.register us).registry b.name b.imports := by
  -- Nothing is registered for `b` by a unit that is apart from it.
  have hfunctions : ∀ k, (k = b.name ∨ k ∈ b.imports) →
      (s.register us').registry.functionsOf k = (s.register us).registry.functionsOf k := by
    intro k hk
    refine (Registry.functionsOf_foldl_flatMap _ _ k).trans
      (Eq.trans ?_ (Registry.functionsOf_foldl_flatMap _ _ k).symm)
    rw [h.flatMap_published fun v m hv hm => ?_]
    obtain ⟨hname, himports, -⟩ := hv.of_publish hm
    refine List.filter_eq_nil_iff.2 fun e he hmodule => ?_
    have hunit : m.name = k :=
      ((Registry.module_ofModule m).1 e he).symm.trans (of_decide_eq_true hmodule)
    subst hunit
    exact hk.elim hname himports
  refine ⟨hfunctions _ (.inl rfl), fun k hk => hfunctions k (.inr hk), fun type n => ?_⟩
  refine (Registry.methods_foldl _ _ _ _ _).trans
    (Eq.trans ?_ (Registry.methods_foldl _ _ _ _ _).symm)
  rw [h.flatMap_published fun v m hv hm => ?_]
  obtain ⟨-, -, hextensions⟩ := hv.of_publish hm
  rw [Registry.methods, hextensions]
  rfl

-- The result for a unit stands where the unit does.
theorem Session.result_at (s : Session) (names : Interner) (b : Builder)
    (before after : List Builder) :
    (s.compileUnits names (before ++ b :: after)).1[before.length]? =
      some ((s.register (before ++ b :: after)).compileUnit names b) := by
  rw [getElem?_compileUnits, List.getElem?_append_right (Nat.le_refl _), Nat.sub_self,
    List.getElem?_cons_zero, Option.map_some]

/-- **Siblings that are apart do not interfere.** In any session, leave out of a batch any units but
`b` that are apart from `b`. The result for `b` is the same: it fails with the same reports, or
compiles to the same unit with the same bindings and resolutions. -/
theorem siblings_apart (s : Session) (names : Interner) {b : Builder}
    {before before' after after' : List Builder}
    (hbefore : Without (b.Apart names) before before')
    (hafter : Without (b.Apart names) after after') :
    ∃ result : Except FailedUnit CompiledUnit,
      (s.compileUnits names (before ++ b :: after)).1[before.length]? = some result ∧
        (s.compileUnits names (before' ++ b :: after')).1[before'.length]? = some result := by
  have hbatch : Without (b.Apart names) (before ++ b :: after) (before' ++ b :: after') :=
    hbefore.append hafter.keep
  have hresult : (s.register (before' ++ b :: after')).compileUnit names b =
      (s.register (before ++ b :: after)).compileUnit names b :=
    Session.compileUnit_eq_of_agreeFor rfl (hbatch.agreeFor s)
  refine ⟨(s.register (before ++ b :: after)).compileUnit names b, s.result_at names b before after,
    ?_⟩
  rw [← hresult]
  exact s.result_at names b before' after'

namespace AmongOthers

/-- A unit with a function 4 of no parameters, which other units may call. -/
def offering (unit : Name) : Builder where
  name := unit
  functions :=
    [{ name := ⟨4⟩, visibility := .anyUnit, kind := .topLevel, span := .dummy
       body := some (.mk [] .dummy) }]

/-- The same without a body. -/
def broken : Builder where
  name := ⟨3⟩
  functions := [{ name := ⟨4⟩, visibility := .anyUnit, kind := .topLevel, span := .dummy }]

/-- A unit that imports unit 2 and calls function 4. -/
def calling : Builder where
  name := ⟨3⟩
  imports := [⟨2⟩]
  functions :=
    [{ name := ⟨7⟩, visibility := .anyUnit, kind := .topLevel, span := .dummy
       body := some (.mk [.expr (.call ⟨4⟩ [] ⟨0⟩ false .dummy) .dummy] .dummy) }]
  nextSite := 1

def session : Session := { config := .unlimited }

/-- What the call of function 4 goes to. -/
def called : Except FailedUnit CompiledUnit → Option Resolution
  | .ok u => u.resolutions.get? ⟨0⟩
  | .error _ => none

end AmongOthers

open AmongOthers in
-- Neither a unit that nobody imports nor a broken one of the caller's own name is missed.
theorem siblings_apart_imported :
    Without (calling.Apart .initial) [offering ⟨1⟩, offering ⟨2⟩] [offering ⟨2⟩] ∧
      Without (calling.Apart .initial) [broken] [] ∧
      ∃ result : Except FailedUnit CompiledUnit,
        (session.compileUnits .initial
          [offering ⟨1⟩, offering ⟨2⟩, calling, broken]).1[2]? = some result ∧
        (session.compileUnits .initial [offering ⟨2⟩, calling]).1[1]? = some result ∧
        called result = some (.direct ⟨⟨2⟩, ⟨0⟩, .topLevel, false⟩) := by
  have hstranger : calling.Apart .initial (offering ⟨1⟩) := by
    refine .unrelated (by decide) (by decide) fun f hf hkind => ?_
    obtain rfl := List.mem_singleton.1 hf
    cases hkind
  have hbroken : calling.Apart .initial broken := .unpublished rfl
  have hbefore : Without (calling.Apart .initial) [offering ⟨1⟩, offering ⟨2⟩] [offering ⟨2⟩] :=
    .leave hstranger (.keep .nil)
  have hafter : Without (calling.Apart .initial) [broken] [] := .leave hbroken .nil
  obtain ⟨result, hall, hleft⟩ := siblings_apart session .initial hbefore hafter
  refine ⟨hbefore, hafter, result, hall, hleft, ?_⟩
  have hcalled := congrArg (Option.bind · called) hleft
  exact hcalled.symm.trans rfl

end LateBind

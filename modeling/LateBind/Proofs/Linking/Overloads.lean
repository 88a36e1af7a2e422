import LateBind.Proofs.Linking.OwnCalls
import LateBind.Proofs.Unit.Fixpoint

/-!
# Overloads

Functions of a unit may share a name. Calls tell them apart by the number of arguments and, for
methods, by the type of the receiver. A published unit has no two functions of one kind, name, target
and number of parameters, so calls that name all of these find the function. An extension that has no
target is published as well, but it is not registered and no call finds it.
-/

namespace LateBind

/-! ## 1. Functions told apart -/

/-- The unit that is published if nothing is wrong with it. -/
def Builder.unit (b : Builder) : Module := ⟨b.name, b.imports, b.withCaptures, b.nextSite⟩

-- Publishing settles everything, so what is published could be published again.
theorem Builder.wellFormed_of_finish {b : Builder} {names : Interner} {m : Module}
    (h : b.finish names = .ok m) : WellFormed m.functions := by
  have hsame : ({ b with functions := m.functions } : Builder).functions.map Function.renumbered =
      m.functions.map Function.renumbered := rfl
  obtain ⟨m', hm', -⟩ := exists_finish h hsame names
  exact Nesting.wellFormed_of_errors (finish_eq_ok_iff.1 hm').1

/-- A function outside all closures is known by its name, kind, target and number of parameters. -/
theorem WellFormed.eq_of_same {fs : List Function} (h : WellFormed fs) {i j : FunctionId}
    {x y : Function} (hx : fs[i.index]? = some x) (hy : fs[j.index]? = some y)
    (hclosure : x.kind ≠ .closure) (hname : x.name = y.name) (hkind : x.kind = y.kind)
    (htarget : x.target = y.target) (harity : x.userArity = y.userArity) : i = j := by
  have hnone : ∀ (k : FunctionId) (z : Function), fs[k.index]? = some z → z.kind ≠ .closure →
      ∀ p, ¬ Makes fs p k := by
    intro k z hz hout p hmakes
    obtain ⟨z', hz', hin⟩ := h.closure p k hmakes
    rw [hz] at hz'
    cases hz'
    exact hout hin
  apply h.distinct i j x y hx hy _ hname hkind htarget harity
  exact fun p => iff_of_false (hnone i x hx hclosure p) (hnone j y hy (hkind ▸ hclosure) p)

/-! ## 2. Plain calls -/

/-- A function is found in a table by a test that it passes and no earlier function does. -/
theorem find?_numbered {fs : List Function} {p : FunctionId × Function → Bool} {id : FunctionId}
    {f : Function} (hf : fs[id.index]? = some f) (hp : p (id, f) = true)
    (hbefore : ∀ (i : FunctionId) (g : Function), i.index < id.index → fs[i.index]? = some g →
      p (i, g) = false) : (numbered fs).find? p = some (id, f) := by
  obtain ⟨hlt, hget⟩ := List.getElem?_eq_some_iff.1 hf
  apply List.find?_eq_some_iff_getElem.2
  refine ⟨hp, id.index, by simpa [numbered] using hlt, by simp [numbered, hget], fun j hj => ?_⟩
  have hj' : j < fs.length := Nat.lt_trans hj hlt
  have hmiss := hbefore ⟨j⟩ fs[j] hj (List.getElem?_eq_getElem hj')
  simpa [numbered] using hmiss

namespace Function

/-- Answers calls of `f` with exactly as many arguments as `f` has parameters. -/
structure Doubles (g f : Function) : Prop where
  kind : g.kind = f.kind
  name : g.name = f.name
  arity : g.userArity = f.userArity
  fixed : g.varargs = false

theorem doubles_iff {f g : Function} (hkind : f.kind = .topLevel) :
    ((g.kind = .topLevel && g.name = f.name) = true ∧ g.exact f.userArity = true) ↔ g.Doubles f := by
  simp only [exact, Bool.and_eq_true, decide_eq_true_eq, Bool.not_eq_true', beq_iff_eq]
  constructor
  · rintro ⟨⟨hkind', hname⟩, hfixed, harity⟩
    exact ⟨hkind'.trans hkind.symm, hname, harity, hfixed⟩
  · rintro ⟨hkind', hname, harity, hfixed⟩
    exact ⟨⟨hkind'.trans hkind, hname⟩, hfixed, harity⟩

end Function

namespace Registry

variable {m : Module} {id : FunctionId} {f : Function}

/-- A unit's call finds the first of its functions that answers. -/
theorem function?_ofModule (hf : m.function? id = some f) (hkind : f.kind = .topLevel)
    (hfixed : f.varargs = false)
    (hfirst : ∀ (i : FunctionId) (g : Function), i.index < id.index → m.function? i = some g →
      ¬ g.Doubles f) (imports : List Name) :
    (ofModule m).function? m.name imports f.name f.userArity =
      some (.ofFunction m.name id f) := by
  have hnamed : namedUnder [m] m.name f.name =
      (numbered m.functions).filter fun e => e.2.kind = .topLevel && e.2.name = f.name := by
    simp [namedUnder]
  have hfound : (namedUnder [m] m.name f.name).find? (·.2.exact f.userArity) = some (id, f) := by
    rw [hnamed, List.find?_filter]
    apply find?_numbered hf
    · exact decide_eq_true ((Function.doubles_iff hkind).2 ⟨rfl, rfl, rfl, hfixed⟩)
    · intro i g hlt hg
      exact decide_eq_false fun hp => hfirst i g hlt hg ((Function.doubles_iff hkind).1 hp)
  change ([m].foldl addModule {}).function? m.name imports f.name f.userArity = _
  exact (function?_own_iff.2 (.inl ⟨(id, f), hfound, rfl⟩)).1

/-! ## 3. Method calls -/

theorem mem_methods_ofModule {unit type name : Name} {e : Entry} :
    e ∈ (ofModule m).methods unit type name ↔
      (∃ id g, m.function? id = some g ∧ g.kind = .extension ∧ g.target = some type ∧
        e = .ofFunction m.name id g) ∧ e.name = name ∧ e.visibleFrom unit = true := by
  simp only [methods, List.mem_map, List.mem_filter, Bool.and_eq_true, decide_eq_true_eq]
  constructor
  · rintro ⟨⟨t, x⟩, ⟨hx, ⟨rfl, hname⟩, hvisible⟩, rfl⟩
    exact ⟨mem_extensions_ofModule.1 hx, hname, hvisible⟩
  · rintro ⟨he, hname, hvisible⟩
    exact ⟨(type, e), ⟨mem_extensions_ofModule.2 he, ⟨rfl, hname⟩, hvisible⟩, rfl⟩

/-- A method call finds an extension of its type by the name and the number of arguments. -/
theorem extension?_ofModule (hw : WellFormed m.functions) (hf : m.function? id = some f)
    (hkind : f.kind = .extension) (hfixed : f.varargs = false) {type : Name}
    (htarget : f.target = some type) (hpos : 0 < f.userArity) :
    (ofModule m).extension? m.name type f.name (f.userArity - 1) =
      some (.ofFunction m.name id f) := by
  have hargs : f.userArity - 1 + 1 = f.userArity := Nat.sub_add_cancel hpos
  have hexact : (Entry.ofFunction m.name id f).exact f.userArity = true := by
    simp [Entry.exact, Entry.ofFunction, hfixed]
  have hmem : Entry.ofFunction m.name id f ∈ (ofModule m).methods m.name type f.name :=
    mem_methods_ofModule.2 ⟨⟨id, f, hf, hkind, htarget, rfl⟩, rfl, by simp [Entry.visibleFrom,
      Entry.ofFunction]⟩
  obtain ⟨e, he⟩ := Option.isSome_iff_exists.1 (List.find?_isSome.2 ⟨_, hmem, hexact⟩)
  -- Whatever else fits would have the same signature.
  obtain ⟨⟨i, g, hg, hkind', htarget', rfl⟩, hname, -⟩ :=
    mem_methods_ofModule.1 (List.mem_of_find?_eq_some he)
  have hfits := List.find?_some he
  simp only [Entry.exact, Entry.ofFunction, Bool.and_eq_true, beq_iff_eq] at hfits
  have hid : i = id := hw.eq_of_same hg hf (by rw [hkind']; decide) hname (hkind'.trans hkind.symm)
    (htarget'.trans htarget.symm) hfits.2
  subst hid
  rw [hf] at hg
  cases hg
  rw [extension?, hargs, bestMatch?]
  show (List.find? (Entry.exact f.userArity) _).or _ = _
  rw [he, Option.some_or]

-- What is registered as an extension of a type has that type as its target.
theorem target_of_mem_extensions {type : Name} {e : Entry} (he : (type, e) ∈ (ofModule m).extensions)
    (hf : m.function? e.function = some f) : f.kind = .extension ∧ f.target = some type := by
  obtain ⟨i, g, hg, hkind, htarget, rfl⟩ := mem_extensions_ofModule.1 he
  rw [show m.function? i = some f from hf] at hg
  cases hg
  exact ⟨hkind, htarget⟩

theorem kind_of_mem_functions {e : Entry} (he : e ∈ (ofModule m).functions)
    (hf : m.function? e.function = some f) : f.kind = .topLevel := by
  obtain ⟨i, g, hg, hkind, rfl⟩ := mem_functions_ofModule.1 he
  rw [show m.function? i = some f from hf] at hg
  cases hg
  exact hkind

/-- Function `id` is in neither table, and no call finds it, whatever it says and wherever it is. -/
structure Misses (r : Registry) (id : FunctionId) : Prop where
  functions : ∀ e ∈ r.functions, e.function ≠ id
  extensions : ∀ p ∈ r.extensions, p.2.function ≠ id
  plain : ∀ unit imports n args e, r.function? unit imports n args = some e → e.function ≠ id
  method : ∀ unit type n args e, r.extension? unit type n args = some e → e.function ≠ id

/-- What is not registered is not found. -/
theorem misses_of_not_mem {r : Registry} (hfunctions : ∀ e ∈ r.functions, e.function ≠ id)
    (hextensions : ∀ p ∈ r.extensions, p.2.function ≠ id) : r.Misses id where
  functions := hfunctions
  extensions := hextensions
  plain _ _ _ _ e he := hfunctions e (function?_sound he).1
  method _ type _ _ e he := hextensions (type, e) (extension?_sound he).1

/-- Only an extension with a target is registered. -/
theorem misses_ofModule (hf : m.function? id = some f) (hkind : f.kind = .extension)
    (htarget : f.target = none) : (ofModule m).Misses id := by
  refine misses_of_not_mem (fun e he hid => ?_) fun p hp hid => ?_
  · have htop := kind_of_mem_functions he (hid ▸ hf)
    rw [hkind] at htop
    cases htop
  · obtain ⟨-, hsome⟩ := target_of_mem_extensions hp (hid ▸ hf)
    rw [htarget] at hsome
    cases hsome

end Registry

/-- **Calls find each overload.** Of a published unit that is registered alone, a plain call with as
many arguments as it has parameters finds each top-level function of fixed arity, unless one declared
before it answers the same calls and has another target. A method call with an argument less finds each
extension of fixed arity that has a target and a parameter for the receiver, on that target. An
extension without a target is not registered, and no call finds it. -/
theorem overloads_found {b : Builder} {names : Interner} {m : Module} (h : b.finish names = .ok m) :
    (∀ id f, m.function? id = some f → f.kind = .topLevel → f.varargs = false →
      (∀ (i : FunctionId) (g : Function), i.index < id.index → m.function? i = some g →
        g.Doubles f → g.target = f.target) →
      ∀ imports, (Registry.ofModule m).function? m.name imports f.name f.userArity =
        some (.ofFunction m.name id f)) ∧
    (∀ id f type, m.function? id = some f → f.kind = .extension → f.varargs = false →
      f.target = some type → 0 < f.userArity →
      (Registry.ofModule m).extension? m.name type f.name (f.userArity - 1) =
        some (.ofFunction m.name id f)) ∧
    ∀ id f, m.function? id = some f → f.kind = .extension → f.target = none →
      (Registry.ofModule m).Misses id := by
  have hw := Builder.wellFormed_of_finish h
  refine ⟨fun id f hf hkind hfixed htargets imports => ?_, fun id f type hf hkind hfixed htarget hpos =>
    Registry.extension?_ofModule hw hf hkind hfixed htarget hpos,
    fun id f hf hkind htarget => Registry.misses_ofModule hf hkind htarget⟩
  apply Registry.function?_ofModule hf hkind hfixed
  intro i g hlt hg hdoubles
  -- An earlier one with the same target would be the same function.
  have hsame : i = id := hw.eq_of_same hg hf (by rw [hdoubles.kind, hkind]; decide) hdoubles.name
    hdoubles.kind (htargets i g hlt hg hdoubles) hdoubles.arity
  exact absurd hlt (hsame ▸ Nat.lt_irrefl _)

namespace Overloaded

/-- A function that does nothing. -/
def function (kind : FunctionKind) (params : List Name) (target : Option Name) : Function where
  name := ⟨2⟩
  visibility := .ownUnit
  kind := kind
  span := .dummy
  userParams := params
  target := target
  body := some (.mk [] .dummy)

/-- Five functions of one name. -/
def builder : Builder where
  name := ⟨1⟩
  functions :=
    [function .topLevel [⟨3⟩] none,
      { function .topLevel [⟨3⟩, ⟨4⟩, ⟨5⟩] none with varargs := true },
      function .topLevel [⟨3⟩, ⟨4⟩] none,
      function .extension [⟨3⟩] (some ⟨6⟩), function .extension [⟨3⟩] (some ⟨7⟩)]

/-- Functions of one name that only their targets tell apart. -/
def doubled : Builder where
  name := ⟨1⟩
  functions :=
    [function .topLevel [⟨3⟩] (some ⟨6⟩), function .topLevel [⟨3⟩] none,
      function .extension [⟨3⟩] none]

end Overloaded

open Overloaded in
-- Two arguments are for the third function, though the second takes them too.
theorem overloads_found_several :
    builder.finish .initial = .ok builder.unit ∧
      (∃ f, (Registry.ofModule builder.unit).function? ⟨1⟩ [] ⟨2⟩ 2 =
        some (.ofFunction ⟨1⟩ ⟨2⟩ f)) ∧
      ∃ f, (Registry.ofModule builder.unit).extension? ⟨1⟩ ⟨7⟩ ⟨2⟩ 0 =
        some (.ofFunction ⟨1⟩ ⟨4⟩ f) := by
  have hfinish : builder.finish .initial = .ok builder.unit := rfl
  obtain ⟨hplain, hmethod, -⟩ := overloads_found hfinish
  refine ⟨hfinish, ⟨_, hplain ⟨2⟩ _ rfl rfl rfl (fun i g hlt hg _ => ?_) []⟩,
    _, hmethod ⟨4⟩ _ ⟨7⟩ rfl rfl rfl rfl (by decide)⟩
  match i, hlt with
  | ⟨0⟩, _ => cases hg; rfl
  | ⟨1⟩, _ => cases hg; rfl

open Overloaded in
/-- An extension without a target is found on no type, and of two functions with different targets a
plain call does not find the second. -/
theorem overloads_unreachable :
    doubled.finish .initial = .ok doubled.unit ∧
    ¬ (∀ id f, doubled.unit.function? id = some f → f.kind = .extension →
      f.varargs = false → 0 < f.userArity →
      ∃ type, (Registry.ofModule doubled.unit).extension? doubled.unit.name type f.name
        (f.userArity - 1) = some (.ofFunction doubled.unit.name id f)) ∧
    ¬ ∀ id f, doubled.unit.function? id = some f → f.kind = .topLevel → f.varargs = false →
      (Registry.ofModule doubled.unit).function? doubled.unit.name
        doubled.unit.imports f.name f.userArity =
        some (.ofFunction doubled.unit.name id f) := by
  refine ⟨rfl, fun h => ?_, fun h => ?_⟩
  · obtain ⟨type, htype⟩ := h ⟨2⟩ _ rfl rfl rfl (by decide)
    have hmem := (Registry.extension?_sound htype).1
    have htarget := (Registry.target_of_mem_extensions hmem rfl).2
    cases htarget
  · have hsecond := h ⟨1⟩ _ rfl rfl rfl
    exact absurd (congrArg (Option.map Entry.function) hsecond) (by decide)

end LateBind

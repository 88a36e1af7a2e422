import LateBind.Dynamic.Object
import LateBind.Proofs.Linking.Overloads

/-!
# Where the receiver of a method call goes

A method call passes its receiver as the first argument. Run time gives it to a function only if that
has a parameter for it, and a parameter that gathers all arguments is none. A call that is linked to an
extension beforehand is held to the number of arguments alone. The two agree on every extension but
those whose only parameter gathers all arguments.
-/

namespace LateBind

/-! ## 1. At run time -/

namespace Callable

variable {c : Callable}

theorem takesReceiver_iff : c.takesReceiver = true ↔
    1 ≤ c.arity ∧ ¬ (c.varargs = true ∧ c.arity = 1) := by
  rw [takesReceiver, Bool.and_eq_true, decide_eq_true_eq, Bool.not_eq_true', Bool.eq_false_iff, ne_eq,
    Bool.and_eq_true, beq_iff_eq]

/-- A function value can be bound where it takes a receiver, takes arguments the way the site passes
them, and accepts as many. -/
theorem methodFault?_eq_none_iff {shape : Shape} : Object.methodFault? c shape = none ↔
    c.takesReceiver = true ∧ c.varargs = shape.varargs ∧ c.accepts shape.arity = true := by
  unfold Object.methodFault?
  cases c.takesReceiver with
  | false => simp
  | true =>
    by_cases hvarargs : c.varargs = shape.varargs
    · cases c.accepts shape.arity <;> simp [hvarargs]
    · simp [hvarargs]

end Callable

/-! ## 2. Extensions as function values -/

namespace Function

variable {f : Function}

/-- The function value that has the signature of `f`. -/
def callable (f : Function) (text : String) (code : RoutineId) : Callable :=
  ⟨text, f.userArity, f.varargs, code⟩

/-- The one parameter of `f` gathers all arguments. -/
def Gathers (f : Function) : Prop := f.varargs = true ∧ f.userArity = 1

/-- A function that accepts some argument has a parameter for the first one, unless it gathers it or has
no parameter to collect into. -/
theorem takesReceiver_callable_iff {args : Nat} (haccepts : f.accepts (args + 1) = true)
    (hparameter : f.varargs = true → f.userParams ≠ []) (text : String) (code : RoutineId) :
    (f.callable text code).takesReceiver = true ↔ ¬ f.Gathers := by
  have hpos : 1 ≤ f.userArity := by
    cases hvarargs : f.varargs with
    | true => exact List.length_pos_iff.2 (hparameter hvarargs)
    | false =>
      rw [accepts, signatureAccepts, hvarargs, if_neg Bool.false_ne_true, beq_iff_eq] at haccepts
      omega
  rw [Callable.takesReceiver_iff]
  exact and_iff_right hpos

end Function

/-! ## 3. Calls that are linked -/

/-- A method call that is linked goes to an extension of a published unit which accepts the arguments
and the receiver. -/
theorem exists_of_resolveMethod {ms : List Module} {u : Module} {n type : Name} {args : Nat}
    {t : FunctionTarget}
    (h : (u.linkContext (ms.foldl Registry.addModule {})).resolveMethod n args (some type) =
      .direct t) :
    ∃ m ∈ ms, ∃ f, m.function? t.function = some f ∧ f.kind = .extension ∧ f.target = some type ∧
      (ms.foldl Registry.addModule {}).extension? u.name type n args =
        some (.ofFunction m.name t.function f) ∧
      t = (Entry.ofFunction m.name t.function f).toTarget ∧ f.accepts (args + 1) = true := by
  obtain ⟨type', e, htype, he, ht⟩ | ht := LinkContext.resolveMethod_cases h <;> cases ht
  cases htype
  obtain ⟨hmem, -, haccepts, -⟩ := Registry.extension?_sound he
  obtain ⟨m, hm, id, f, hf, hkind, htarget, rfl⟩ := Registry.exists_extension hmem
  exact ⟨m, hm, f, hf, hkind, htarget, he, rfl, haccepts⟩

/-- **A linked receiver has a parameter of its own, unless it is gathered.** Whatever published units
are registered, in whatever order, a method call that is linked goes to an extension of one of them. A
function value with the signature of the extension accepts the arguments and the receiver. It takes the
receiver in a parameter of its own, so that run time would bind it as well, exactly if its one parameter
does not gather all arguments. -/
theorem receiver_parameter_iff {ms : List Module}
    (hms : ∀ m ∈ ms, ∃ (b : Builder) (names : Interner), b.finish names = .ok m) {u : Module}
    {n type : Name} {args : Nat} {t : FunctionTarget}
    (h : (u.linkContext (ms.foldl Registry.addModule {})).resolveMethod n args (some type) =
      .direct t) :
    ∃ m ∈ ms, ∃ f, m.function? t.function = some f ∧ f.kind = .extension ∧ f.target = some type ∧
      (ms.foldl Registry.addModule {}).extension? u.name type n args =
        some (.ofFunction m.name t.function f) ∧
      t = (Entry.ofFunction m.name t.function f).toTarget ∧
      ∀ text code, (f.callable text code).accepts (args + 1) = true ∧
        ((f.callable text code).takesReceiver = true ↔ ¬ f.Gathers) ∧
        (Object.methodFault? (f.callable text code) ⟨args + 1, f.varargs⟩ = none ↔ ¬ f.Gathers) := by
  obtain ⟨m, hm, f, hf, hkind, htarget, he, ht, haccepts⟩ := exists_of_resolveMethod h
  refine ⟨m, hm, f, hf, hkind, htarget, he, ht, fun text code => ?_⟩
  obtain ⟨b, names, hfinish⟩ := hms m hm
  have hw := Builder.wellFormed_of_finish hfinish
  have hreceiver := Function.takesReceiver_callable_iff haccepts
    (hw.varargs f (List.mem_of_getElem? hf)) text code
  refine ⟨haccepts, hreceiver, ?_⟩
  rw [Callable.methodFault?_eq_none_iff, hreceiver]
  exact and_iff_left ⟨rfl, haccepts⟩

namespace Gathering

/-- An extension that collects its last arguments. -/
def collecting (name : Name) (params : List Name) : Function where
  name := name
  visibility := .ownUnit
  kind := .extension
  span := .dummy
  userParams := params
  varargs := true
  target := some ⟨6⟩
  body := some (.mk [] .dummy)

/-- Function 2 gathers all arguments, function 3 those after the first. -/
def builder : Builder where
  name := ⟨1⟩
  functions := [collecting ⟨2⟩ [⟨4⟩], collecting ⟨3⟩ [⟨5⟩, ⟨4⟩]]

/-- How a method call in that unit on a value of the type is to be made. -/
def resolve (n : Name) (args : Nat) : Resolution :=
  (builder.unit.linkContext ([builder.unit].foldl Registry.addModule {})).resolveMethod n args
    (some ⟨6⟩)

end Gathering

open Gathering in
-- The second function has a parameter for the receiver, and collects three arguments after it.
theorem receiver_parameter_collects :
    builder.finish .initial = .ok builder.unit ∧
      resolve ⟨3⟩ 3 = .direct ⟨⟨1⟩, ⟨1⟩, .extension, true⟩ ∧
      ∃ f, builder.unit.function? ⟨1⟩ = some f ∧ f.userParams = [⟨5⟩, ⟨4⟩] ∧
        (f.callable "" ⟨0⟩).accepts 4 = true ∧ (f.callable "" ⟨0⟩).takesReceiver = true := by
  have hfinish : builder.finish .initial = .ok builder.unit := rfl
  have hcall : resolve ⟨3⟩ 3 = .direct ⟨⟨1⟩, ⟨1⟩, .extension, true⟩ := by decide
  have hunits : ∀ m ∈ [builder.unit], ∃ (b : Builder) (names : Interner), b.finish names = .ok m :=
    fun m hm => ⟨builder, .initial, List.mem_singleton.1 hm ▸ hfinish⟩
  obtain ⟨m, hm, f, hf, -, -, -, -, hvalue⟩ := receiver_parameter_iff hunits hcall
  obtain rfl := List.mem_singleton.1 hm
  cases hf
  obtain ⟨haccepts, hreceiver, -⟩ := hvalue "" ⟨0⟩
  exact ⟨hfinish, hcall, _, rfl, rfl, haccepts, hreceiver.2 fun h => absurd h.2 (by decide)⟩

open Gathering in
/-- The first function is called with the receiver among the arguments that it gathers. -/
theorem receiver_gathered :
    builder.finish .initial = .ok builder.unit ∧
      resolve ⟨2⟩ 0 = .direct ⟨⟨1⟩, ⟨0⟩, .extension, true⟩ ∧
      ∃ f, builder.unit.function? ⟨0⟩ = some f ∧
        ∀ text code, (f.callable text code).takesReceiver = false := by
  refine ⟨rfl, by decide, collecting ⟨2⟩ [⟨4⟩], rfl, fun text code => ?_⟩
  exact Bool.eq_false_iff.2 fun h => (Callable.takesReceiver_iff.1 h).2 ⟨rfl, rfl⟩

end LateBind

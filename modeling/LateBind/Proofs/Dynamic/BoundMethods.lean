import LateBind.Proofs.Dynamic.Transparency

/-!
# Methods taken as values

A function can be called directly, or as a method that was taken off an object with its receiver. For
a function with a fixed number of parameters both come to the same, whatever the reference has called
before. A reference asks for a method of fixed signature only, though, so a function that collects its
last arguments can be called directly and is refused as a method.
-/

namespace LateBind

/-! ## 1. What a method is bound to -/

variable {f : Callable} {name : String}

/-- A function that takes a receiver and the call's arguments has no fault but, perhaps, in how it
takes them. -/
theorem Object.target_function {x : Object} (hf : x.properties.get? name = some (.function f))
    (htakes : f.takesReceiver = true) (shape : Shape) (haccepts : f.accepts shape.arity = true) :
    x.target name shape =
      if f.varargs = shape.varargs then .ok (.method f)
      else .error ⟨name, .signature shape.varargs f.varargs⟩ := by
  by_cases hvarargs : f.varargs = shape.varargs
  · have hfault : methodFault? f shape = none := by simp [methodFault?, htakes, haccepts, hvarargs]
    rw [if_pos hvarargs, target, hf]
    simp only [hfault]
  · have hfault : methodFault? f shape = some (.signature shape.varargs f.varargs) := by
      simp [methodFault?, htakes, hvarargs]
    rw [if_neg hvarargs, target, hf]
    simp only [hfault]

/-! ## 2. What a method comes to -/

namespace Uncached

variable {code : Routines} {s : State} {o : ObjectId} {x : Object} {shape : Shape}
  {args : List Value}

theorem dispatch_object (ho : s.object? o = some x) :
    dispatch code s name shape (.object o :: args) =
      match x.target name shape with
      | .error e => some (.done (.error (.link e)), s)
      | .ok t => enterTarget t code s (.object o :: args) := by
  have hreceiver : receiver? (.object o :: args) = some o := rfl
  simp only [dispatch, hreceiver, ho, Option.bind_eq_bind, Option.bind_some]
  rfl

theorem answer_method (ho : s.object? o = some x) (htarget : x.target name shape = .ok (.method f))
    (fuel : Nat) :
    answer code fuel s name shape (.object o :: args) =
      runTo code 0 fuel ⟨s, f.body code (.object o :: args), []⟩ := by
  rw [answer, dispatch_object ho, htarget]
  rfl

theorem answer_link_error {e : LinkError} (ho : s.object? o = some x)
    (htarget : x.target name shape = .error e) (fuel : Nat) :
    answer code fuel s name shape (.object o :: args) = some (.error (.link e), s) := by
  rw [answer, dispatch_object ho, htarget]
  exact runTo_of_outcome rfl

end Uncached

/-! ## 3. Methods and functions -/

/-- **A method with a fixed number of parameters is called as the function it is.** At any moment of a
run let a property of an object be a function that takes a receiver and the call's arguments. If it
has a fixed number of parameters, then calling it as a method taken off the object, through any
reference, is answered as calling it directly is, with the receiver put first, and leaves the same
state to be seen. If it collects its last arguments, the method is refused and nothing happens. -/
theorem bound_method_called {code : Routines} {c : Config} (hc : Reachable code c)
    (r : ReferenceId) (o : ObjectId) (name : String) (args : List Value) {x : Object} {f : Callable}
    (hr : r.index < c.heap.references.length) (ho : c.heap.object? o = some x)
    (hf : x.properties.get? name = some (.function f)) (htakes : f.takesReceiver = true)
    (haccepts : f.accepts (args.length + 1) = true) (next : Outcome → Program) (fuel : Nat) :
    (f.varargs = false →
      ((Invocation.reference r (.boundMethod o name) args).answer code (fuel + 1) c.heap
          (.resume next :: c.stack)).map Heap.viewAnswer =
        ((Invocation.function f (.object o :: args)).answer code fuel c.heap
          (.resume next :: c.stack)).map Heap.viewAnswer ∧
      ((Invocation.reference r (.boundMethod o name) args).answer code (fuel + 1) c.heap
          (.resume next :: c.stack)).map Heap.viewAnswer =
        ((Invocation.reference r (.function f) (.object o :: args)).answer code fuel c.heap
          (.resume next :: c.stack)).map Heap.viewAnswer) ∧
    (f.varargs = true →
      ((Invocation.reference r (.boundMethod o name) args).answer code (fuel + 1) c.heap
          (.resume next :: c.stack)).map Heap.viewAnswer =
        some (.error (.link ⟨name, .signature false true⟩), c.heap.view)) := by
  have hs := hc.sound.resume next
  have hview : c.heap.view.object? o = some x.view := by rw [Heap.object?_view, ho]; rfl
  have htarget := Object.target_function hf htakes { arity := args.length + 1 } haccepts
  rw [← Heap.target_view] at htarget
  rw [Invocation.answer_boundMethod hs hr]
  constructor
  · intro hfixed
    rw [if_pos hfixed] at htarget
    rw [Uncached.answer_method hview htarget, ← Invocation.answer_function hs]
    -- A reference to a function calls it directly.
    exact ⟨rfl, rfl⟩
  · intro hcollects
    simp only [hcollects, Bool.true_eq_false, if_false] at htarget
    exact Uncached.answer_link_error hview htarget fuel

namespace TakenOff

/-- The first function answers with its second argument, the others with how many they were given. -/
def routines : Routines
  | ⟨0⟩, args => .done (.ok (args.getD 1 .null))
  | _, args => .done (.ok (.int (Int64.ofNat args.length)))

/-- A function of two parameters, and one of which the second collects. -/
def pair : Callable := ⟨"m", 2, false, ⟨0⟩⟩
def collecting : Callable := ⟨"m", 2, true, ⟨1⟩⟩

/-- A reference calls a method, which is then replaced by the function `f`. -/
def program (f : Callable) : Program :=
  .operate .create fun o => .operate (.define o "m" (.function ⟨"m", 2, false, ⟨2⟩⟩)) fun _ =>
  .operate .createReference fun r => .invoke (.reference r (.boundMethod o "m") [.int 1]) fun _ =>
  .operate (.define o "m" (.function f)) fun _ => .done (.ok .null)

/-- The configuration at the end. -/
def final (f : Callable) : Config := (advance routines 7 ⟨{}, program f, []⟩).getD ⟨{}, program f, []⟩

end TakenOff

open TakenOff in
-- The reference remembers a link to the old method, and the call runs the new one.
theorem bound_method_called_replaced :
    (final pair).heap.sites.map (·.cached.map (·.target)) =
      [some (.method ⟨"m", 2, false, ⟨2⟩⟩)] ∧
    ((Invocation.reference ⟨0⟩ (.boundMethod ⟨0⟩ "m") [.int 5]).answer routines 1 (final pair).heap
        [.resume .done]).map Heap.viewAnswer =
      ((Invocation.function pair [.object ⟨0⟩, .int 5]).answer routines 0 (final pair).heap
        [.resume .done]).map Heap.viewAnswer ∧
    ((Invocation.function pair [.object ⟨0⟩, .int 5]).answer routines 0 (final pair).heap
        [.resume .done]).map (·.1) = some (.ok (.int 5)) := by
  have hreachable : Reachable routines (final pair) :=
    (Reachable.start (program pair)).advance (n := 7) (d := final pair) rfl
  have hobject : (final pair).heap.object? ⟨0⟩ = some ((final pair).heap.objects.headD .empty) := rfl
  have hmethod : ((final pair).heap.objects.headD .empty).properties.get? "m" =
      some (.function pair) := by decide
  obtain ⟨hcall, -⟩ := (bound_method_called hreachable ⟨0⟩ ⟨0⟩ "m" [.int 5] (by decide) hobject
    hmethod rfl rfl .done 0).1 rfl
  exact ⟨rfl, hcall, rfl⟩

open TakenOff in
/-- A function that collects its last arguments takes the call directly and is refused as a method. -/
theorem bound_method_refused :
    Reachable routines (final collecting) ∧
    ((final collecting).heap.object? ⟨0⟩).bind (·.properties.get? "m") =
      some (.function collecting) ∧
    collecting.takesReceiver = true ∧ collecting.accepts 3 = true ∧
    ((Invocation.reference ⟨0⟩ (.function collecting) [.object ⟨0⟩, .int 1, .int 2]).answer routines
        10 (final collecting).heap [.resume .done]).map (·.1) = some (.ok (.int 3)) ∧
    ((Invocation.reference ⟨0⟩ (.boundMethod ⟨0⟩ "m") [.int 1, .int 2]).answer routines 10
        (final collecting).heap [.resume .done]).map (·.1) =
      some (.error (.link ⟨"m", .signature false true⟩)) := by
  refine ⟨?_, by decide, rfl, rfl, rfl, rfl⟩
  exact (Reachable.start (program collecting)).advance (n := 7) (d := final collecting) rfl

end LateBind

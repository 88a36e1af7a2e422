import LateBind.Diagnostic.Basic
import LateBind.Lexical.Point
import LateBind.Lexical.SiteTable

/-!
Local bindings of a module: the slots of each frame, the slot behind each call of a bound name,
and the uses of names that lexical scope does not allow.
-/
namespace LateBind

inductive NameError where
  /-- Read or assigned where nothing has bound it. -/
  | undeclared (name : Name) (span : Span)
  /-- Assigned to, but bound as a constant at `bound`. -/
  | constantAssigned (name : Name) (span bound : Span)
  /-- Bound twice in one block. -/
  | rebound (name : Name) (span first : Span)
deriving DecidableEq, Repr

def NameError.report (names : Interner) : NameError → Diagnostic
  | undeclared n s =>
      ((Diagnostic.ofCode .undeclaredName).withMessage
        ("cannot find `" ++ names.lookup n ++ "` in this scope")).withLabel s "not declared"
  | constantAssigned n s bound =>
      (((Diagnostic.ofCode .constantAssigned).withMessage
        ("cannot assign twice to constant `" ++ names.lookup n ++ "`")).withLabel
        s "assignment to constant").withSecondary bound "bound as a constant here"
      |>.withNote "declare it with `var` to allow reassignment"
  | rebound n s first =>
      ((Diagnostic.ofCode .nameRebound).withMessage
        ("`" ++ names.lookup n ++ "` is already bound in this block")).withLabel s "bound again here"
      |>.withSecondary first "first bound here"

namespace Point

/-- What is wrong with the use of a name at a point. A plain call may name a function, so a call
of an unbound name is no fault here. -/
def nameError? (p : Point) : Option NameError :=
  match p.mark with
  | .bind s => (p.scope.repeated? s.name).map fun first => .rebound s.name s.span first.span
  | .assign n sp =>
      match p.scope.find? n with
      | none => some (.undeclared n sp)
      | some s => if s.kind = .constant then some (.constantAssigned n sp s.span) else none
  | .read n sp => if p.scope.binds n then none else some (.undeclared n sp)
  | .call .. | .method .. | .closure .. => none

/-- The slot a point adds to its frame. A repeated binding adds none. -/
def newSlot? (p : Point) : Option Slot :=
  match p.mark with
  | .bind s => if (p.scope.repeated? s.name).isSome then none else some s
  | _ => none

/-- The slot behind a plain call of a bound name. -/
def callBinding? (p : Point) : Option (CallSiteId × Slot) :=
  match p.mark with
  | .call n _ site _ _ => (p.scope.find? n).map (site, ·)
  | _ => none

end Point

def Function.slots (f : Function) : List Slot := f.points.filterMap (·.newSlot?)

structure Locals where
  /-- The slots of each function: parameters, then bindings in source order. -/
  frames : List (List Slot)
  bindings : SiteTable Slot

namespace Locals

/-- The binding that the name of a call refers to, if one is in scope. -/
def bindingAt? (l : Locals) (s : CallSiteId) : Option Slot := l.bindings.get? s

end Locals

namespace Module

/-- All points of a module, function by function. -/
def points (m : Module) : List Point := m.functions.flatMap (·.points)

def locals (m : Module) : Locals :=
  ⟨m.functions.map (·.slots), ⟨m.points.filterMap (·.callBinding?)⟩⟩

def nameErrors (m : Module) : List NameError := m.points.filterMap (·.nameError?)

end Module

end LateBind

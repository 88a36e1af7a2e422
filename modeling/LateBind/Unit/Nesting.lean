import LateBind.Lexical.Point

/-!
Where closures are made. A closure is nested in the function whose body makes it, and a unit is
well nested when each closure is made in one place and the chain of enclosing functions ends
outside all closures.
-/
namespace LateBind

/-- A place that makes a closure. -/
structure ClosureSite where
  owner : FunctionId
  body : FunctionId
  span : Span
  scope : Scope

/-- The places in a function that make closures, in source order. -/
def Function.closureSites (id : FunctionId) (f : Function) : List ClosureSite :=
  f.points.filterMap fun p =>
    match p.mark with
    | .closure body span => some ⟨id, body, span, p.scope⟩
    | _ => none

/-- Whether `parent` leads from `c` to a root in fewer than `fuel` steps. A function without a
parent ends the chain. -/
def reachesRoot (parent : FunctionId → Option FunctionId) (isRoot : FunctionId → Bool) :
    Nat → FunctionId → Bool
  | 0, _ => false
  | fuel + 1, c =>
      match parent c with
      | some p => reachesRoot parent isRoot fuel p
      | none => isRoot c

/-- The functions of a unit with the places that make closures. -/
structure Nesting where
  functions : List Function
  sites : List ClosureSite

namespace Nesting

def ofFunctions (functions : List Function) : Nesting :=
  ⟨functions, (numbered functions).flatMap fun (id, f) => f.closureSites id⟩

def function? (t : Nesting) (f : FunctionId) : Option Function := t.functions[f.index]?

def isClosure (t : Nesting) (f : FunctionId) : Bool := (t.function? f).any (·.kind = .closure)

/-- The places that make closure `c`. -/
def sitesOf (t : Nesting) (c : FunctionId) : List ClosureSite := t.sites.filter (·.body == c)

/-- The one place that makes closure `c`, if it is one. -/
def siteOf? (t : Nesting) (c : FunctionId) : Option ClosureSite :=
  if t.isClosure c then
    match t.sitesOf c with
    | [s] => some s
    | _ => none
  else none

/-- The function that closure `c` is nested in. -/
def enclosing? (t : Nesting) (c : FunctionId) : Option FunctionId := (t.siteOf? c).map (·.owner)

/-- A declared function that is no closure. -/
def isRoot (t : Nesting) (f : FunctionId) : Bool := (t.function? f).any (·.kind ≠ .closure)

/-- Whether the functions around `c` end with one that is no closure. A chain that passes more
functions than there are goes round in a circle. -/
def isRooted (t : Nesting) (c : FunctionId) : Bool :=
  reachesRoot t.enclosing? t.isRoot (t.functions.length + 1) c

end Nesting

end LateBind

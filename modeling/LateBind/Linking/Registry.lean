import LateBind.Syntax.Function

/-!
What is known of the functions of all published units, and how a call finds one. A plain call sees
the functions of its own unit and what imported units export; a method call on a known type sees
the extensions of that type. A function of exactly the right number of parameters goes before one
that collects the rest.
-/
namespace LateBind

/-- What a call has to know of a function. -/
structure Entry where
  module : Name
  function : FunctionId
  name : Name
  visibility : Visibility
  kind : FunctionKind
  userArity : Nat
  varargs : Bool
deriving DecidableEq, Repr

namespace Entry

def ofFunction (module : Name) (id : FunctionId) (f : Function) : Entry :=
  ⟨module, id, f.name, f.visibility, f.kind, f.userArity, f.varargs⟩

def accepts (e : Entry) (args : Nat) : Bool := signatureAccepts e.userArity e.varargs args

/-- Seen by units that import its unit. -/
def isExported (e : Entry) : Bool := e.visibility = .anyUnit && e.kind = .topLevel

/-- Whether code of `unit` may call it as a method. -/
def visibleFrom (e : Entry) (unit : Name) : Bool := e.module = unit || e.visibility = .anyUnit

end Entry

/-- The entry that takes `args` arguments: the first with as many parameters, else the first that
collects the rest. -/
def bestMatch? (candidates : List Entry) (args : Nat) : Option Entry :=
  (candidates.find? fun e => !e.varargs && e.userArity == args).or
    (candidates.find? fun e => e.varargs && e.accepts args)

structure Registry where
  /-- Top-level functions, in order of registration. -/
  functions : List Entry := []
  /-- Extensions with the types they are attached to, in order of registration. -/
  extensions : List (Name × Entry) := []

namespace Registry

/-! ## Filling -/

def addFunction (r : Registry) (e : Entry) : Registry := { r with functions := r.functions ++ [e] }

def addExtension (r : Registry) (type : Name) (e : Entry) : Registry :=
  { r with extensions := r.extensions ++ [(type, e)] }

/-- Registers one function of a unit. Closures are not called by name, and an extension without a
type cannot be. -/
def addOf (r : Registry) (module : Name) (id : FunctionId) (f : Function) : Registry :=
  let e := Entry.ofFunction module id f
  match f.kind, f.target with
  | .topLevel, _ => r.addFunction e
  | .extension, some type => r.addExtension type e
  | .extension, none => r
  | .closure, _ => r

def addModule (r : Registry) (m : Module) : Registry :=
  (numbered m.functions).foldl (fun r (id, f) => r.addOf m.name id f) r

/-! ## Looking up -/

/-- The registered functions of one unit. -/
def functionsOf (r : Registry) (module : Name) : List Entry :=
  r.functions.filter (·.module = module)

/-- What a plain call of `name` in `unit` can mean: the unit's own functions, then what its
imports export, import by import. -/
def candidates (r : Registry) (unit : Name) (imports : List Name) (name : Name) : List Entry :=
  let imported := (imports.filter (· ≠ unit)).flatMap r.functionsOf
  (r.functionsOf unit ++ imported.filter (·.isExported)).filter (·.name = name)

/-- The function that `name` with so many arguments calls in `unit`. -/
def function? (r : Registry) (unit : Name) (imports : List Name) (name : Name) (args : Nat) :
    Option Entry :=
  bestMatch? (r.candidates unit imports name) args

/-- What a method call of `name` on a value of `type` in `unit` can mean. -/
def methods (r : Registry) (unit type name : Name) : List Entry :=
  (r.extensions.filter fun (t, e) => t = type && e.name = name && e.visibleFrom unit).map (·.2)

/-- The extension that a method call with so many arguments calls; the receiver is its first
parameter. -/
def extension? (r : Registry) (unit type name : Name) (args : Nat) : Option Entry :=
  bestMatch? (r.methods unit type name) (args + 1)

end Registry

end LateBind

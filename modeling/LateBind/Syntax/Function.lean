import LateBind.Signature
import LateBind.Syntax.Basic

/-! Functions: what a unit declares, and what callers see of it. -/
namespace LateBind

/-- Who may call a function. -/
inductive Visibility where
  | anyUnit
  | ownUnit
deriving DecidableEq, Repr

def Visibility.text : Visibility → String
  | anyUnit => "Public"
  | ownUnit => "Local"

instance : Inhabited Visibility := ⟨.anyUnit⟩

/-- Where a function belongs. -/
inductive FunctionKind where
  /-- To its unit, by name. -/
  | topLevel
  /-- To a type defined elsewhere, as a method on it. -/
  | extension
  /-- Inside another function, whose bindings it can use. -/
  | closure
deriving DecidableEq, Repr

namespace FunctionKind

def text : FunctionKind → String
  | topLevel => "module"
  | extension => "extension"
  | closure => "closure"

def all : List FunctionKind := [topLevel, extension, closure]

end FunctionKind

structure Function where
  name : Name
  visibility : Visibility
  kind : FunctionKind
  span : Span
  /-- The parameters a caller passes. -/
  userParams : List Name := []
  /-- The parameters that hold captured bindings. They come after the others. -/
  syntheticParams : List Name := []
  /-- The last user parameter takes the trailing arguments. -/
  varargs : Bool := false
  /-- Not written by the user. -/
  synthetic : Bool := false
  /-- The type an extension is attached to. -/
  target : Option Name := none
  /-- There is none until the function is complete. -/
  body : Option Block := none

namespace Function

def params (f : Function) : List Name := f.userParams ++ f.syntheticParams

def arity (f : Function) : Nat := f.params.length

def userArity (f : Function) : Nat := f.userParams.length

def accepts (f : Function) (args : Nat) : Bool := signatureAccepts f.userArity f.varargs args

def isComplete (f : Function) : Bool := f.body.isSome

def text (f : Function) : String :=
  "Function \x7b name: " ++ f.name.text ++ ", " ++ f.visibility.text ++ ", " ++ f.kind.text ++
    ", params: [" ++ ", ".intercalate (f.params.map (·.text)) ++ "], synthetic_params: " ++
    toString f.syntheticParams.length ++ ", varargs: " ++ toString f.varargs ++ ", synthetic: " ++
    toString f.synthetic ++ ", complete: " ++ toString f.isComplete ++ " \x7d"

end Function

/-- One change to a declared function. -/
inductive Edit where
  /-- More user parameters, after those there are. -/
  | parameters (names : List Name)
  | syntheticParameter (name : Name)
  | varargs (on : Bool)
  | synthetic (on : Bool)
  | target (type : Name)
  /-- A body, in place of an earlier one. -/
  | body (block : Block)

def Function.edit (f : Function) : Edit → Function
  | .parameters names => { f with userParams := f.userParams ++ names }
  | .syntheticParameter name => { f with syntheticParams := f.syntheticParams ++ [name] }
  | .varargs on => { f with varargs := on }
  | .synthetic on => { f with synthetic := on }
  | .target type => { f with target := some type }
  | .body block => { f with body := some block }

/-- A published unit. Its functions, closures included, are known by their places. -/
structure Module where
  name : Name
  imports : List Name
  functions : List Function
  /-- Call sites are numbered below this. -/
  callSites : Nat

/-- Functions with their ids, in order of declaration. -/
def numbered (fs : List Function) : List (FunctionId × Function) :=
  fs.zipIdx.map fun (f, i) => (⟨i⟩, f)

namespace Module

def function? (m : Module) (f : FunctionId) : Option Function := m.functions[f.index]?

def text (m : Module) (name : String) : String :=
  "Module \x7b name: " ++ name ++ ", " ++ toString m.imports.length ++ " imports, " ++
    toString m.functions.length ++ " functions, " ++ toString m.callSites ++ " call sites \x7d"

end Module

end LateBind

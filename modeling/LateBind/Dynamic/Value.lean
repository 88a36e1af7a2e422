import LateBind.Signature

/-!
What bindings and properties hold. Functions and objects are known by identity: a value carries
the number of a routine or an object, not its contents.
-/
namespace LateBind

/-- An object by its place in order of creation. -/
structure ObjectId where
  index : Nat
deriving DecidableEq, Repr, Inhabited

/-- The code that a function value or a fallback runs. -/
structure RoutineId where
  index : Nat
deriving DecidableEq, Repr, Inhabited

/-- A function value. `arity` counts every declared parameter; with `varargs` the last one takes
the trailing arguments, however many there are. Each function value has a routine of its own. -/
structure Callable where
  name : String
  arity : Nat
  varargs : Bool
  routine : RoutineId
deriving DecidableEq, Repr

namespace Callable

/-- Has a leading parameter that can hold a receiver. A lone varargs parameter is the list of
trailing arguments and not a receiver. -/
def takesReceiver (f : Callable) : Bool := 1 ≤ f.arity && !(f.varargs && f.arity == 1)

def accepts (f : Callable) (args : Nat) : Bool := signatureAccepts f.arity f.varargs args

/-- The same function value, not merely one with the same signature. -/
def same (f g : Callable) : Bool := f.routine == g.routine

def text (f : Callable) : String :=
  "Callable(" ++ f.name ++ "/" ++ toString f.arity ++ (if f.varargs then "..." else "") ++ ")"

end Callable

inductive Value where
  | null
  | bool (b : Bool)
  | int (i : Int64)
  /-- A double by its bits, so that the payload of a NaN is kept. -/
  | float (bits : UInt64)
  | str (s : String)
  | function (f : Callable)
  /-- A method taken as a value, receiver included; calling it looks `name` up on the receiver. -/
  | boundMethod (receiver : ObjectId) (name : String)
  | object (o : ObjectId)
deriving DecidableEq, Repr, Inhabited

namespace Value

def typeName : Value → String
  | null => "null"
  | bool _ => "bool"
  | int _ => "int"
  | float _ => "float"
  | str _ => "string"
  | function _ => "function"
  | boundMethod .. => "method"
  | object _ => "object"

def asObject? : Value → Option ObjectId
  | object o => some o
  | _ => none

def asText? : Value → Option String
  | str s => some s
  | _ => none

/-- Bits of a double without its sign. -/
def magnitude (bits : UInt64) : UInt64 := bits &&& 0x7FFFFFFFFFFFFFFF

/-- A magnitude above that of infinity. -/
def isNaN (bits : UInt64) : Bool := 0x7FF0000000000000 < magnitude bits

/-- Comparison of doubles: a NaN equals nothing and the two zeros are equal. -/
def floatEquals (a b : UInt64) : Bool :=
  !isNaN a && !isNaN b && (a == b || (magnitude a == 0 && magnitude b == 0))

/-- Scalars are compared by content; functions, objects and the receivers of bound methods by
identity. Values of different types are never equal. -/
def equals : Value → Value → Bool
  | null, null => true
  | bool a, bool b => a == b
  | int a, int b => a == b
  | float a, float b => floatEquals a b
  | str a, str b => a == b
  | function f, function g => f.same g
  | boundMethod o n, boundMethod p m => o == p && n == m
  | object o, object p => o == p
  | _, _ => false

end Value

/-- The type of the first argument, for messages about a missing receiver. -/
def receiverType (args : List Value) : String :=
  match args with
  | [] => "nothing"
  | v :: _ => v.typeName

/-- The object that a call is made on: its first argument. -/
def receiver? (args : List Value) : Option ObjectId := args.head?.bind Value.asObject?

end LateBind

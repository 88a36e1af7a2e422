import LateBind.Dynamic.Value

/-! Why a call site cannot be bound to a property, and why a call fails. -/
namespace LateBind

/-- How a property fails to serve a call site. -/
inductive Mismatch where
  | missingReceiver
  | arity (expected found : Nat)
  | signature (expected found : Bool)
  | dataArity (arity : Nat)
deriving DecidableEq, Repr

/-- Raised when a call site is bound, before anything is called. -/
structure LinkError where
  property : String
  mismatch : Mismatch
deriving DecidableEq, Repr

def quoted (name : String) : String := "`" ++ name ++ "`"

def LinkError.message (e : LinkError) : String :=
  quoted e.property ++ match e.mismatch with
    | .missingReceiver => " must take the dynamic object as its first, non-varargs parameter"
    | .arity expected found =>
        " takes " ++ toString found ++ " parameter(s) but the call site passes " ++ toString expected
    | .signature expected found =>
        " signature mismatch: call site varargs=" ++ toString expected ++ ", property varargs=" ++
          toString found
    | .dataArity arity =>
        " is a data property and cannot be called with " ++ toString arity ++ " argument(s)"

inductive CallError where
  | frozen (name : String)
  | propertyMissing (name : String) (arguments : List Value)
  | link (e : LinkError)
  | notCallable (type : String)
  | wrongArgCount (name : String) (expected found : Nat)
  | notAnObject (name : String) (type : String)
  | siteDropped (name : String)
deriving DecidableEq, Repr

def CallError.message : CallError → String
  | frozen name => "cannot change " ++ quoted name ++ ": the object is frozen"
  | propertyMissing name arguments =>
      "missing dynamic object definition for " ++ quoted name ++ " (called with " ++
        toString arguments.length ++ " argument(s))"
  | link e => e.message
  | notCallable type => "a " ++ quoted type ++ " value is not callable"
  | wrongArgCount name expected found =>
      quoted name ++ " expects " ++ toString expected ++ " argument(s), got " ++ toString found
  | notAnObject name type =>
      quoted name ++ " must be called on a dynamic object, got a " ++ quoted type ++ " value"
  | siteDropped name => "the call site for " ++ quoted name ++ " no longer exists"

/-- How a call ends. -/
abbrev Outcome := Except CallError Value

end LateBind

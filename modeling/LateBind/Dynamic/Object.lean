import LateBind.Dynamic.Table
import LateBind.Dynamic.Error

/-!
Dynamic objects. A property can be added, replaced and removed while code runs. A call site binds
to the current state of one property and is given a token; changing that property revokes the
tokens given out for its name and no others.

The operations here change one object and say which tokens that revokes. The heap applies both.
-/
namespace LateBind

/-- What a call site passes. `arity` counts the receiver; `varargs` marks a site whose trailing
arguments fill a varargs parameter. -/
structure Shape where
  arity : Nat
  varargs : Bool := false
deriving DecidableEq, Repr

/-- A token by its place in order of issue. -/
structure TokenId where
  index : Nat
deriving DecidableEq, Hashable, Repr

/-- What a bound call site does. -/
inductive Target where
  /-- Call the property's function with the arguments as they are. -/
  | method (f : Callable)
  /-- Answer with the property's value. -/
  | constant (v : Value)
  /-- Bind the name to the second argument on the receiver and answer with the receiver. -/
  | define (name : String)
  /-- Fail, since there is no such property. -/
  | missing (name : String)
deriving DecidableEq, Repr

structure Object where
  properties : Table Value
  /-- The tokens given out for each name. A name has an entry once it was bound or linked. -/
  tokens : Table (List TokenId)
  frozen : Bool

namespace Object

def empty : Object := ⟨.empty, .empty, false⟩

instance : Inhabited Object := ⟨empty⟩

/-- The tokens out for `name`. -/
def issued (o : Object) (name : String) : List TokenId := (o.tokens.get? name).getD []

/-- Whether `name` was ever bound or linked. -/
def tracks (o : Object) (name : String) : Bool := o.tokens.contains name

/-! ## Changes to properties -/

/-- Binds `name`; the tokens out for it are revoked. -/
def define (o : Object) (name : String) (v : Value) : Object × List TokenId :=
  ({ o with properties := o.properties.insert name v, tokens := o.tokens.insert name [] },
    o.issued name)

/-- Removes `name`; the tokens out for it are revoked. An absent name is left as it is. -/
def undefine (o : Object) (name : String) : Object × List TokenId :=
  if o.properties.contains name then
    ({ o with properties := o.properties.erase name, tokens := o.tokens.insert name [] },
      o.issued name)
  else (o, [])

/-- Binds all of `incoming` at once. -/
def mixin (o : Object) (incoming : Table Value) : Object × List TokenId :=
  ({ o with
      properties := incoming.entries.foldl (fun t e => t.insert e.1 e.2) o.properties
      tokens := incoming.keys.foldl (fun t n => t.insert n []) o.tokens },
    incoming.keys.flatMap o.issued)

/-- A new object with the same properties. Each of them counts as bound, with no token out. -/
def copy (o : Object) : Object := ⟨o.properties, o.properties.map fun _ => [], false⟩

/-! ## Binding to a property -/

/-- Whether `f` can be called as a method through a site of `shape`. The first fault counts. -/
def methodFault? (f : Callable) (shape : Shape) : Option Mismatch :=
  if !f.takesReceiver then some .missingReceiver
  else if f.varargs != shape.varargs then some (.signature shape.varargs f.varargs)
  else if !f.accepts shape.arity then some (.arity shape.arity f.arity)
  else none

/-- What a site of `shape` for `name` should do, as the property is now. Data answers a getter
(one argument) with its value and a setter (two) by being bound anew; an absent name answers a
setter by being bound, and any other shape by failing when it is called. -/
def target (o : Object) (name : String) (shape : Shape) : Except LinkError Target :=
  match o.properties.get? name with
  | some (.function f) =>
      match methodFault? f shape with
      | some m => .error ⟨name, m⟩
      | none => .ok (.method f)
  | some v =>
      if shape.arity = 1 then .ok (.constant v)
      else if shape.arity = 2 then .ok (.define name)
      else .error ⟨name, .dataArity shape.arity⟩
  | none => .ok (if shape.arity = 2 then .define name else .missing name)

/-- Gives out `fresh` for `name`. Tokens that nothing carries any more are forgotten first. -/
def issue (o : Object) (name : String) (carried : TokenId → Bool) (fresh : TokenId) : Object :=
  { o with tokens := o.tokens.insert name ((o.issued name).filter carried ++ [fresh]) }

end Object

end LateBind

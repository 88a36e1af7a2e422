import LateBind.Dynamic.Object

/-!
Programs over dynamic objects: what the body of a function or fallback can do. A program is a
tree: it ends with an outcome, or it does one thing and goes on according to the reply.
-/
namespace LateBind

/-- A stub held by a program or a user. -/
structure StubId where
  index : Nat
deriving DecidableEq, Repr

/-- A handle on a call site. Several handles may share one site. -/
structure SiteHandle where
  index : Nat
deriving DecidableEq, Repr

/-- A call site for a local binding. -/
structure ReferenceId where
  index : Nat
deriving DecidableEq, Repr

/-- What is done at once, without running other code. -/
inductive Operation where
  | create
  | copy (o : ObjectId)
  | define (o : ObjectId) (name : String) (v : Value)
  | undefine (o : ObjectId) (name : String)
  | freeze (o : ObjectId)
  /-- Bind every property of `source` on `o`. -/
  | mixin (o source : ObjectId)
  | properties (o : ObjectId)
  | isFrozen (o : ObjectId)
  /-- Bind a new stub to a property; the stub runs `fallback` whenever it may not be used. -/
  | link (o : ObjectId) (name : String) (shape : Shape) (fallback : RoutineId)
  | cloneStub (s : StubId)
  | dropStub (s : StubId)
  | createSite (name : String) (shape : Shape)
  | cloneSite (s : SiteHandle)
  | dropSite (s : SiteHandle)
  | createReference
deriving DecidableEq, Repr

/-- What an operation answers with. Dropping says whether there was something to drop. -/
@[reducible] def Operation.Reply : Operation → Type
  | create | copy _ => ObjectId
  | define .. | undefine .. | mixin .. => Except CallError Unit
  | freeze _ => Unit
  | properties _ => Table Value
  | isFrozen _ => Bool
  | link .. => Except LinkError StubId
  | cloneStub _ => StubId
  | createSite .. | cloneSite _ => SiteHandle
  | dropStub _ | dropSite _ => Bool
  | createReference => ReferenceId

/-- What runs other code before it answers. -/
inductive Invocation where
  | function (f : Callable) (args : List Value)
  | stub (s : StubId) (args : List Value)
  /-- The receiver is the first of `args`. -/
  | site (s : SiteHandle) (args : List Value)
  | reference (r : ReferenceId) (callee : Value) (args : List Value)
deriving DecidableEq, Repr

inductive Program where
  | done (outcome : Outcome)
  | operate (a : Operation) (next : a.Reply → Program)
  | invoke (i : Invocation) (next : Outcome → Program)

namespace Program

instance : Inhabited Program := ⟨done (.ok .null)⟩

/-- Goes on with the value of `p`; an error ends the whole. -/
def andThen (p : Program) (next : Value → Program) : Program :=
  match p with
  | done (.ok v) => next v
  | done (.error e) => done (.error e)
  | operate a rest => operate a fun r => (rest r).andThen next
  | invoke i rest => invoke i fun r => (rest r).andThen next

end Program

/-- The body of each routine, applied to the arguments of a call. -/
abbrev Routines := RoutineId → List Value → Program

/-- Calls `f`, which refuses a wrong number of arguments before its body runs. -/
def Callable.body (f : Callable) (code : Routines) (args : List Value) : Program :=
  if f.accepts args.length then code f.routine args
  else .done (.error (.wrongArgCount f.name f.arity args.length))

end LateBind

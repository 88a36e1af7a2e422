import LateBind.Syntax.Function

/-!
The nodes of a module in source order: functions as declared, the receiver of a call before its
arguments, a condition before what it guards. A reader of the sequence may ask to stop at some
kinds of node; then what lies below such a node is left out.
-/
namespace LateBind

/-- A kind of node. -/
inductive Hook where
  | function | block | stmt | expr | call | method | reference | closure | literal
deriving DecidableEq, Repr

/-- A node as it is come upon. A call is come upon twice: as an expression, then as what it is. -/
inductive Event where
  | function (id : FunctionId) (f : Function)
  | block (b : Block)
  | stmt (s : Stmt)
  | expr (e : Expr)
  | call (name : Name) (args : List Expr) (site : CallSiteId) (onReference : Bool) (span : Span)
  | method (receiver : Expr) (name : Name) (args : List Expr) (site : CallSiteId)
      (receiverType : Option Name) (span : Span)
  | reference (name : Name) (span : Span)
  | closure (body : FunctionId) (span : Span)
  | literal (value : Literal) (span : Span)

def Event.hook : Event → Hook
  | function .. => .function
  | block _ => .block
  | stmt _ => .stmt
  | expr _ => .expr
  | call .. => .call
  | method .. => .method
  | reference .. => .reference
  | closure .. => .closure
  | literal .. => .literal

/-- An event, then those below it unless they are not wanted. -/
def Event.above (e : Event) (stop : Hook → Bool) (below : List Event) : List Event :=
  e :: if stop e.hook then [] else below

mutual

def Expr.events (stop : Hook → Bool) (e : Expr) : List Event :=
  match e with
  | .literal v s => (Event.expr (.literal v s)).above stop [.literal v s]
  | .reference n s => (Event.expr (.reference n s)).above stop [.reference n s]
  | .functionRef n s => (Event.expr (.functionRef n s)).above stop []
  | .closure f s => (Event.expr (.closure f s)).above stop [.closure f s]
  | .call n args site r s =>
      (Event.expr (.call n args site r s)).above stop
        ((Event.call n args site r s).above stop (exprEvents stop args))
  | .method receiver n args site t s =>
      (Event.expr (.method receiver n args site t s)).above stop
        ((Event.method receiver n args site t s).above stop
          (receiver.events stop ++ exprEvents stop args))
  | .binary op l r s =>
      (Event.expr (.binary op l r s)).above stop (l.events stop ++ r.events stop)
  | .unary op x s => (Event.expr (.unary op x s)).above stop (x.events stop)
  | .newObject s => (Event.expr (.newObject s)).above stop []

def exprEvents (stop : Hook → Bool) (es : List Expr) : List Event :=
  match es with
  | [] => []
  | e :: rest => e.events stop ++ exprEvents stop rest

end

mutual

def Stmt.events (stop : Hook → Bool) (s : Stmt) : List Event :=
  match s with
  | .bind k n v sp => (Event.stmt (.bind k n v sp)).above stop (v.events stop)
  | .assign n v sp => (Event.stmt (.assign n v sp)).above stop (v.events stop)
  | .expr v sp => (Event.stmt (.expr v sp)).above stop (v.events stop)
  | .ret v sp => (Event.stmt (.ret v sp)).above stop (v.elim [] (·.events stop))
  | .ifThen c b sp => (Event.stmt (.ifThen c b sp)).above stop (c.events stop ++ b.events stop)
  | .ifThenElse c b o sp =>
      (Event.stmt (.ifThenElse c b o sp)).above stop
        (c.events stop ++ b.events stop ++ o.events stop)
  | .loop c b sp => (Event.stmt (.loop c b sp)).above stop (c.events stop ++ b.events stop)
  | .block b sp => (Event.stmt (.block b sp)).above stop (b.events stop)

def Block.events (stop : Hook → Bool) (b : Block) : List Event :=
  match b with
  | .mk ss sp => (Event.block (.mk ss sp)).above stop (stmtEvents stop ss)

def stmtEvents (stop : Hook → Bool) (ss : List Stmt) : List Event :=
  match ss with
  | [] => []
  | s :: rest => s.events stop ++ stmtEvents stop rest

end

/-- A function without a body has nothing below it. -/
def Function.events (stop : Hook → Bool) (id : FunctionId) (f : Function) : List Event :=
  (Event.function id f).above stop (f.body.elim [] (·.events stop))

def Module.events (stop : Hook → Bool) (m : Module) : List Event :=
  (numbered m.functions).flatMap fun (id, f) => f.events stop id

/-- The whole sequence. -/
def Module.allEvents (m : Module) : List Event := m.events fun _ => false

end LateBind

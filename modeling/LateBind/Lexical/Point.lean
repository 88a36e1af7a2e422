import LateBind.Lexical.Scope

/-!
What a function's code does with names, point by point in source order, each time with the scope
in force there. Every later pass over code is a pass over these points.
-/
namespace LateBind

/-- Something done with a name, or the making of a closure. -/
inductive Mark where
  | bind (slot : Slot)
  | assign (name : Name) (span : Span)
  | read (name : Name) (span : Span)
  /-- A plain call of `name` with so many arguments. -/
  | call (name : Name) (args : Nat) (site : CallSiteId) (onReference : Bool) (span : Span)
  /-- A method call; the receiver is not counted among the arguments. -/
  | method (name : Name) (args : Nat) (site : CallSiteId) (receiverType : Option Name) (span : Span)
  | closure (body : FunctionId) (span : Span)
deriving DecidableEq, Repr

structure Point where
  scope : Scope
  mark : Mark
deriving Repr

mutual

/-- The marks of an expression. It binds nothing, so one scope is in force for all of them. A
call's own mark comes before those of its receiver and arguments. -/
def Expr.marks (e : Expr) : List Mark :=
  match e with
  | .literal .. | .functionRef .. | .newObject _ => []
  | .reference n s => [.read n s]
  | .closure f s => [.closure f s]
  | .call n args site r s => .call n args.length site r s :: exprMarks args
  | .method receiver n args site t s =>
      .method n args.length site t s :: (receiver.marks ++ exprMarks args)
  | .binary _ l r _ => l.marks ++ r.marks
  | .unary _ x _ => x.marks

def exprMarks (es : List Expr) : List Mark :=
  match es with
  | [] => []
  | e :: rest => e.marks ++ exprMarks rest

end

def Expr.points (σ : Scope) (e : Expr) : List Point := e.marks.map (⟨σ, ·⟩)

/-- The slot that a binding statement makes. -/
def bindingSlot (k : BindingKind) (n : Name) (s : Span) : Slot := ⟨n, k, .statement, s⟩

/-- The scope after a statement. Blocks inside it are closed by then. -/
def Stmt.scopeAfter (σ : Scope) : Stmt → Scope
  | .bind k n _ s => σ.bind (bindingSlot k n s)
  | _ => σ

mutual

/-- A binding takes effect after its value; an assignment looks its name up before its value. -/
def Stmt.points (σ : Scope) (s : Stmt) : List Point :=
  match s with
  | .bind k n v sp => v.points σ ++ [⟨σ, .bind (bindingSlot k n sp)⟩]
  | .assign n v sp => ⟨σ, .assign n sp⟩ :: v.points σ
  | .expr v _ => v.points σ
  | .ret v _ => v.elim [] (·.points σ)
  | .ifThen c b _ => c.points σ ++ b.points σ
  | .ifThenElse c b o _ => c.points σ ++ b.points σ ++ o.points σ
  | .loop c b _ => c.points σ ++ b.points σ
  | .block b _ => b.points σ

def Block.points (σ : Scope) (b : Block) : List Point :=
  match b with
  | .mk ss _ => stmtPoints σ.enter ss

def stmtPoints (σ : Scope) (ss : List Stmt) : List Point :=
  match ss with
  | [] => []
  | s :: rest => s.points σ ++ stmtPoints (s.scopeAfter σ) rest

end

/-- Slots bound one after another. -/
def slotPoints (σ : Scope) : List Slot → List Point
  | [] => []
  | s :: rest => ⟨σ, .bind s⟩ :: slotPoints (σ.bind s) rest

def Function.bodyPoints (f : Function) : List Point := f.body.elim [] (·.points f.paramScope)

/-- The parameters are bound first. -/
def Function.points (f : Function) : List Point := slotPoints .empty f.paramSlots ++ f.bodyPoints

end LateBind

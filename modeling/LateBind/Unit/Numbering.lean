import LateBind.Syntax.Basic

/-!
Numbering of call sites. Each call of a tree gets the next free number once its receiver and
arguments have theirs, so a call's number is greater than those inside it.
-/
namespace LateBind

mutual

/-- The tree with calls numbered from `next`, and the first number left. -/
def Expr.number (next : Nat) (e : Expr) : Expr × Nat :=
  match e with
  | .literal v s => (.literal v s, next)
  | .reference n s => (.reference n s, next)
  | .functionRef n s => (.functionRef n s, next)
  | .closure f s => (.closure f s, next)
  | .newObject s => (.newObject s, next)
  | .call n args _ r s =>
      let (args, next) := numberExprs next args
      (.call n args ⟨next⟩ r s, next + 1)
  | .method receiver n args _ t s =>
      let (receiver, next) := receiver.number next
      let (args, next) := numberExprs next args
      (.method receiver n args ⟨next⟩ t s, next + 1)
  | .binary op l r s =>
      let (l, next) := l.number next
      let (r, next) := r.number next
      (.binary op l r s, next)
  | .unary op x s =>
      let (x, next) := x.number next
      (.unary op x s, next)

def numberExprs (next : Nat) (es : List Expr) : List Expr × Nat :=
  match es with
  | [] => ([], next)
  | e :: rest =>
      let (e, next) := e.number next
      let (rest, next) := numberExprs next rest
      (e :: rest, next)

end

def numberOption (next : Nat) (e : Option Expr) : Option Expr × Nat :=
  match e with
  | none => (none, next)
  | some e =>
      let (e, next) := e.number next
      (some e, next)

mutual

def Stmt.number (next : Nat) (s : Stmt) : Stmt × Nat :=
  match s with
  | .bind k n v sp =>
      let (v, next) := v.number next
      (.bind k n v sp, next)
  | .assign n v sp =>
      let (v, next) := v.number next
      (.assign n v sp, next)
  | .expr v sp =>
      let (v, next) := v.number next
      (.expr v sp, next)
  | .ret v sp =>
      let (v, next) := numberOption next v
      (.ret v sp, next)
  | .ifThen c b sp =>
      let (c, next) := c.number next
      let (b, next) := b.number next
      (.ifThen c b sp, next)
  | .ifThenElse c b o sp =>
      let (c, next) := c.number next
      let (b, next) := b.number next
      let (o, next) := o.number next
      (.ifThenElse c b o sp, next)
  | .loop c b sp =>
      let (c, next) := c.number next
      let (b, next) := b.number next
      (.loop c b sp, next)
  | .block b sp =>
      let (b, next) := b.number next
      (.block b sp, next)

def Block.number (next : Nat) (b : Block) : Block × Nat :=
  match b with
  | .mk ss sp =>
      let (ss, next) := numberStmts next ss
      (.mk ss sp, next)

def numberStmts (next : Nat) (ss : List Stmt) : List Stmt × Nat :=
  match ss with
  | [] => ([], next)
  | s :: rest =>
      let (s, next) := s.number next
      let (rest, next) := numberStmts next rest
      (s :: rest, next)

end

end LateBind

import LateBind.Span
import LateBind.Name

/-!
The tree of a unit's code. Expressions, statements and blocks carry the range of source they were
written in. A closure's body is a function of its own; the expression only says where the closure
is made.
-/
namespace LateBind

/-- A function by its place in its unit. -/
structure FunctionId where
  index : Nat
deriving DecidableEq, Repr, Inhabited

def FunctionId.text (f : FunctionId) : String := "FunctionId(" ++ toString f.index ++ ")"

/-- A written call. Within a unit that a builder made no two calls share one. -/
structure CallSiteId where
  index : Nat
deriving DecidableEq, Repr, Inhabited

def CallSiteId.text (s : CallSiteId) : String := "CallSiteId(" ++ toString s.index ++ ")"

/-- Whether a local binding may be assigned to. -/
inductive BindingKind where
  | constant
  | assignable
deriving DecidableEq, Repr

def BindingKind.text : BindingKind → String
  | constant => "Constant"
  | assignable => "Variable"

inductive BinaryOp where
  | add | sub | mul | div | eq | ne | lt | le | gt | ge | and | or
deriving DecidableEq, Repr

namespace BinaryOp

def symbol : BinaryOp → String
  | add => "+"
  | sub => "-"
  | mul => "*"
  | div => "/"
  | eq => "=="
  | ne => "!="
  | lt => "<"
  | le => "<="
  | gt => ">"
  | ge => ">="
  | and => "and"
  | or => "or"

def all : List BinaryOp := [add, sub, mul, div, eq, ne, lt, le, gt, ge, and, or]

def ofSymbol? (s : String) : Option BinaryOp := all.find? (·.symbol == s)

theorem ofSymbol?_symbol (op : BinaryOp) : ofSymbol? op.symbol = some op := by cases op <;> decide

end BinaryOp

inductive UnaryOp where
  | neg
  | not
deriving DecidableEq, Repr

def UnaryOp.symbol : UnaryOp → String
  | neg => "neg"
  | not => "not"

inductive Literal where
  | null
  | bool (b : Bool)
  | int (i : Int64)
  /-- A double by its bits. -/
  | float (bits : UInt64)
  | str (s : Name)
deriving DecidableEq, Repr

/-- An expression. A call has one range, that of the written call. The expression around it could
have a range of its own, but no pass would ask for it. -/
inductive Expr where
  | literal (value : Literal) (span : Span)
  /-- Read of a local binding. -/
  | reference (name : Name) (span : Span)
  /-- A named function used as a value. -/
  | functionRef (name : Name) (span : Span)
  /-- Making a closure. -/
  | closure (body : FunctionId) (span : Span)
  /-- `name(args)`. With `onReference` the name is that of a local binding, whose value is called. -/
  | call (name : Name) (args : List Expr) (site : CallSiteId) (onReference : Bool) (span : Span)
  /-- `receiver.name(args)`, with the type of the receiver where it is known beforehand. -/
  | method (receiver : Expr) (name : Name) (args : List Expr) (site : CallSiteId)
      (receiverType : Option Name) (span : Span)
  | binary (op : BinaryOp) (left right : Expr) (span : Span)
  | unary (op : UnaryOp) (operand : Expr) (span : Span)
  /-- A new, empty object. -/
  | newObject (span : Span)
deriving Inhabited

def Expr.span : Expr → Span
  | literal _ s | reference _ s | functionRef _ s | closure _ s | call _ _ _ _ s
  | method _ _ _ _ _ s | binary _ _ _ s | unary _ _ s | newObject s => s

/-- What plain calls and method calls have in common. -/
structure NamedCall where
  name : Name
  args : List Expr
  site : CallSiteId
  span : Span

namespace NamedCall

def plain (c : NamedCall) (onReference : Bool) : Expr :=
  .call c.name c.args c.site onReference c.span

def method (c : NamedCall) (receiver : Expr) (receiverType : Option Name) : Expr :=
  .method receiver c.name c.args c.site receiverType c.span

end NamedCall

/-- What a call has in common with other calls. -/
def Expr.namedCall? : Expr → Option NamedCall
  | call n args site _ s | method _ n args site _ s => some ⟨n, args, site, s⟩
  | _ => none

mutual

inductive Stmt where
  /-- A new binding in the innermost block, from here on. -/
  | bind (kind : BindingKind) (name : Name) (value : Expr) (span : Span)
  | assign (name : Name) (value : Expr) (span : Span)
  | expr (value : Expr) (span : Span)
  | ret (value : Option Expr) (span : Span)
  | ifThen (condition : Expr) (body : Block) (span : Span)
  | ifThenElse (condition : Expr) (body other : Block) (span : Span)
  | loop (condition : Expr) (body : Block) (span : Span)
  | block (body : Block) (span : Span)

/-- A sequence of statements with bindings of its own. -/
inductive Block where
  | mk (stmts : List Stmt) (span : Span)

end

instance : Inhabited Block := ⟨.mk [] .dummy⟩

instance : Inhabited Stmt := ⟨.block default .dummy⟩

def Stmt.span : Stmt → Span
  | bind _ _ _ s | assign _ _ s | expr _ s | ret _ s | ifThen _ _ s | ifThenElse _ _ _ s
  | loop _ _ s | block _ s => s

/-- The word a statement starts with, or what kind of statement it is where there is none. -/
def Stmt.keyword : Stmt → String
  | bind .constant .. => "let"
  | bind .assignable .. => "var"
  | assign .. => "assign"
  | expr .. => "expr"
  | ret .. => "return"
  | ifThen .. | ifThenElse .. => "if"
  | loop .. => "while"
  | block .. => "block"

namespace Block

def stmts : Block → List Stmt
  | mk stmts _ => stmts

def span : Block → Span
  | mk _ span => span

def isEmpty (b : Block) : Bool := b.stmts.isEmpty

end Block

end LateBind

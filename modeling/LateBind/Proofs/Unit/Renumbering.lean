import LateBind.Proofs.Lexical.Places
import LateBind.Unit.Capture
import LateBind.Unit.Numbering

/-!
# Code but for its call sites

Numbering the calls of a body forgets the numbers they had, and changes nothing else about what
stands in the body. So two bodies that become the same when they are numbered from zero have the
same places but for call sites.
-/

namespace LateBind

/-! ## 1. Numbering again -/

mutual

theorem Expr.number_number (e : Expr) (k l : Nat) : (e.number k).1.number l = e.number l := by
  cases e with
  | literal | reference | functionRef | closure | newObject => rfl
  | call n args site r s => simp only [Expr.number, numberExprs_numberExprs args k]
  | method x n args site t s =>
    simp only [Expr.number, x.number_number k, numberExprs_numberExprs args (x.number k).2]
  | binary op a b s => simp only [Expr.number, a.number_number k, b.number_number (a.number k).2]
  | unary op x s => simp only [Expr.number, x.number_number k]

theorem numberExprs_numberExprs (es : List Expr) (k l : Nat) :
    numberExprs l (numberExprs k es).1 = numberExprs l es := by
  cases es with
  | nil => rfl
  | cons e rest =>
    simp only [numberExprs, e.number_number k, numberExprs_numberExprs rest (e.number k).2]

end

theorem numberOption_numberOption (e : Option Expr) (k l : Nat) :
    numberOption l (numberOption k e).1 = numberOption l e := by
  cases e with
  | none => rfl
  | some e => simp only [numberOption, e.number_number k]

mutual

theorem Stmt.number_number (s : Stmt) (k l : Nat) : (s.number k).1.number l = s.number l := by
  cases s with
  | bind kind n v sp | assign n v sp | expr v sp => simp only [Stmt.number, v.number_number k]
  | ret v sp => simp only [Stmt.number, numberOption_numberOption v k]
  | ifThen c b sp | loop c b sp =>
    simp only [Stmt.number, c.number_number k, b.number_number (c.number k).2]
  | ifThenElse c b o sp =>
    simp only [Stmt.number, c.number_number k, b.number_number (c.number k).2,
      o.number_number (b.number (c.number k).2).2]
  | block b sp => simp only [Stmt.number, b.number_number k]

theorem Block.number_number (b : Block) (k l : Nat) : (b.number k).1.number l = b.number l := by
  obtain ⟨ss, sp⟩ := b
  simp only [Block.number, numberStmts_numberStmts ss k]

theorem numberStmts_numberStmts (ss : List Stmt) (k l : Nat) :
    numberStmts l (numberStmts k ss).1 = numberStmts l ss := by
  cases ss with
  | nil => rfl
  | cons s rest =>
    simp only [numberStmts, s.number_number k, numberStmts_numberStmts rest (s.number k).2]

end

/-- A body with its calls numbered from zero. -/
def Block.renumbered (b : Block) : Block := (b.number 0).1

theorem Block.renumbered_number (b : Block) (k : Nat) : (b.number k).1.renumbered = b.renumbered :=
  congrArg Prod.fst (b.number_number k 0)

/-- A function with the calls of its body numbered from zero. Two functions for which these are
equal are the same but for call sites. -/
def Function.renumbered (f : Function) : Function := { f with body := f.body.map (·.renumbered) }

/-! ## 2. Places -/

/-- A mark with the number of its call left out. -/
def Mark.unnumbered : Mark → Mark
  | .call n args _ r sp => .call n args ⟨0⟩ r sp
  | .method n args _ t sp => .method n args ⟨0⟩ t sp
  | m => m

theorem Mark.usedName?_unnumbered (a : Mark) : a.unnumbered.usedName? = a.usedName? := by
  cases a <;> rfl

theorem Mark.unnumbered_eq_closure {a : Mark} {c : FunctionId} {sp : Span}
    (h : a.unnumbered = .closure c sp) : a = .closure c sp := by
  cases a <;> cases h
  rfl

/-- A place with the number of a call left out. -/
def Place.unnumbered (q : Place) : Place := ⟨q.bound, q.mark.unnumbered⟩

theorem map_unnumbered_marks (ns : List Name) (ms : List Mark) :
    (ms.map (⟨ns, ·⟩)).map Place.unnumbered = (ms.map Mark.unnumbered).map (⟨ns, ·⟩) := by
  rw [List.map_map, List.map_map]
  rfl

theorem length_numberExprs (es : List Expr) (k : Nat) :
    (numberExprs k es).1.length = es.length := by
  induction es generalizing k with
  | nil => rfl
  | cons e rest ih => exact congrArg (· + 1) (ih (e.number k).2)

mutual

theorem Expr.marks_number (e : Expr) (k : Nat) :
    (e.number k).1.marks.map Mark.unnumbered = e.marks.map Mark.unnumbered := by
  cases e with
  | literal | reference | functionRef | closure | newObject => rfl
  | call n args site r s =>
    simp only [Expr.number, Expr.marks, List.map_cons, marks_numberExprs args k,
      length_numberExprs]
    rfl
  | method x n args site t s =>
    simp only [Expr.number, Expr.marks, List.map_cons, List.map_append, x.marks_number k,
      marks_numberExprs args (x.number k).2, length_numberExprs]
    rfl
  | binary op a b s =>
    simp only [Expr.number, Expr.marks, List.map_append, a.marks_number k,
      b.marks_number (a.number k).2]
  | unary op x s => exact x.marks_number k

theorem marks_numberExprs (es : List Expr) (k : Nat) :
    (exprMarks (numberExprs k es).1).map Mark.unnumbered =
      (exprMarks es).map Mark.unnumbered := by
  cases es with
  | nil => rfl
  | cons e rest =>
    simp only [numberExprs, exprMarks, List.map_append, e.marks_number k,
      marks_numberExprs rest (e.number k).2]

end

theorem Stmt.names_number (s : Stmt) (k : Nat) : (s.number k).1.names = s.names := by
  cases s <;> rfl

mutual

theorem Stmt.walk_number (s : Stmt) (k : Nat) (ns : List Name) :
    ((s.number k).1.walk ns).map Place.unnumbered = (s.walk ns).map Place.unnumbered := by
  cases s with
  | bind kind n v sp =>
    simp only [Stmt.number, Stmt.walk, List.map_append, map_unnumbered_marks, v.marks_number k]
  | assign n v sp =>
    simp only [Stmt.number, Stmt.walk, List.map_cons, map_unnumbered_marks, v.marks_number k]
  | expr v sp => simp only [Stmt.number, Stmt.walk, map_unnumbered_marks, v.marks_number k]
  | ret v sp =>
    cases v with
    | none => rfl
    | some v =>
      simp only [Stmt.number, numberOption, Stmt.walk, Option.elim_some, map_unnumbered_marks,
        v.marks_number k]
  | ifThen c b sp | loop c b sp =>
    simp only [Stmt.number, Stmt.walk, List.map_append, map_unnumbered_marks, c.marks_number k,
      b.walk_number (c.number k).2 ns]
  | ifThenElse c b o sp =>
    simp only [Stmt.number, Stmt.walk, List.map_append, map_unnumbered_marks, c.marks_number k,
      b.walk_number (c.number k).2 ns, o.walk_number (b.number (c.number k).2).2 ns]
  | block b sp => exact b.walk_number k ns

theorem Block.walk_number (b : Block) (k : Nat) (ns : List Name) :
    ((b.number k).1.walk ns).map Place.unnumbered = (b.walk ns).map Place.unnumbered := by
  obtain ⟨ss, sp⟩ := b
  exact stmtWalk_numberStmts ss k ns

theorem stmtWalk_numberStmts (ss : List Stmt) (k : Nat) (ns : List Name) :
    (stmtWalk ns (numberStmts k ss).1).map Place.unnumbered =
      (stmtWalk ns ss).map Place.unnumbered := by
  cases ss with
  | nil => rfl
  | cons s rest =>
    simp only [numberStmts, stmtWalk, List.map_append, s.walk_number k ns, s.names_number k,
      stmtWalk_numberStmts rest (s.number k).2]

end

namespace Function

theorem walk_renumbered (f : Function) :
    f.renumbered.walk.map Place.unnumbered = f.walk.map Place.unnumbered := by
  unfold walk renumbered
  cases f.body with
  | none => rfl
  | some b => exact b.walk_number 0 f.params

/-- What stands in a function stands in every one that is the same but for call sites, perhaps with
another number. -/
theorem Does.of_renumbered {f g : Function} (h : f.renumbered = g.renumbered) {ns : List Name}
    {a : Mark} (hd : f.Does ns a) : ∃ a', g.Does ns a' ∧ a'.unnumbered = a.unnumbered := by
  have hwalk : f.walk.map Place.unnumbered = g.walk.map Place.unnumbered := by
    rw [← f.walk_renumbered, h, g.walk_renumbered]
  have hq : (⟨ns, a.unnumbered⟩ : Place) ∈ g.walk.map Place.unnumbered :=
    hwalk ▸ List.mem_map.2 ⟨⟨ns, a⟩, Function.mem_walk.2 hd, rfl⟩
  obtain ⟨q, hmem, heq⟩ := List.mem_map.1 hq
  have hbound : q.bound = ns := congrArg Place.bound heq
  exact ⟨q.mark, hbound ▸ Function.mem_walk.1 hmem, congrArg Place.mark heq⟩

end Function

end LateBind

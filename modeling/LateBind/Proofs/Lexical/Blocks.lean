import LateBind.Lexical.Locals
import LateBind.Syntax.Event
import Mathlib.Data.List.Forall2

/-!
# What stands in a function

A statement stands in the body of a function, in a number of open blocks; an expression stands in a
statement, perhaps as an argument or a receiver. This is said of the tree alone, with what each of
the open blocks has bound so far. The points of a function, with the scopes that are carried along,
leave nothing out.
-/

namespace LateBind

/-! ## 1. Expressions -/

/-- `e.Has d`: `d` is `e` or stands inside it. -/
inductive Expr.Has : Expr → Expr → Prop where
  | self {e} : Expr.Has e e
  | argument {n args site r s a d} : a ∈ args → a.Has d → Expr.Has (.call n args site r s) d
  | receiver {x n args site t s d} : x.Has d → Expr.Has (.method x n args site t s) d
  | methodArgument {x n args site t s a d} :
      a ∈ args → a.Has d → Expr.Has (.method x n args site t s) d
  | left {op l r s d} : l.Has d → Expr.Has (.binary op l r s) d
  | right {op l r s d} : r.Has d → Expr.Has (.binary op l r s) d
  | operand {op x s d} : x.Has d → Expr.Has (.unary op x s) d

theorem Expr.Has.trans {a b c : Expr} (h : a.Has b) (h' : b.Has c) : a.Has c := by
  induction h with
  | self => exact h'
  | argument ha _ ih => exact .argument ha (ih h')
  | receiver _ ih => exact .receiver (ih h')
  | methodArgument ha _ ih => exact .methodArgument ha (ih h')
  | left _ ih => exact .left (ih h')
  | right _ ih => exact .right (ih h')
  | operand _ ih => exact .operand (ih h')

/-- The mark that an expression leaves itself. -/
def Expr.mark? : Expr → Option Mark
  | .reference n s => some (.read n s)
  | .closure f s => some (.closure f s)
  | .call n args site r s => some (.call n args.length site r s)
  | .method _ n args site t s => some (.method n args.length site t s)
  | _ => none

theorem Expr.mem_marks_of_mark? {e : Expr} {m : Mark} (hm : e.mark? = some m) : m ∈ e.marks := by
  cases e with
  | reference | closure | call | method =>
    cases hm
    exact List.mem_cons_self
  | _ => cases hm

theorem mem_exprMarks {es : List Expr} {m : Mark} : m ∈ exprMarks es ↔ ∃ e ∈ es, m ∈ e.marks := by
  induction es with
  | nil => simp [exprMarks]
  | cons e rest ih => simp [exprMarks, ih]

theorem Expr.Has.marks {e d : Expr} (h : e.Has d) {m : Mark} (hm : m ∈ d.marks) : m ∈ e.marks := by
  induction h with
  | self => exact hm
  | argument ha _ ih => exact List.mem_cons_of_mem _ (mem_exprMarks.2 ⟨_, ha, ih hm⟩)
  | receiver _ ih => exact List.mem_cons_of_mem _ (List.mem_append_left _ (ih hm))
  | methodArgument ha _ ih =>
    exact List.mem_cons_of_mem _ (List.mem_append_right _ (mem_exprMarks.2 ⟨_, ha, ih hm⟩))
  | left _ ih => exact List.mem_append_left _ (ih hm)
  | right _ ih => exact List.mem_append_right _ (ih hm)
  | operand _ ih => exact ih hm

/-! ## 2. Statements and open blocks -/

namespace Stmt

/-- The expressions of a statement that stand in no block inside it. -/
def exprs : Stmt → List Expr
  | .bind _ _ v _ | .assign _ v _ | .expr v _ => [v]
  | .ret v _ => v.toList
  | .ifThen c _ _ | .ifThenElse c _ _ _ | .loop c _ _ => [c]
  | .block .. => []

/-- The blocks of a statement. -/
def blocks : Stmt → List Block
  | .ifThen _ b _ | .loop _ b _ | .block b _ => [b]
  | .ifThenElse _ b o _ => [b, o]
  | .bind .. | .assign .. | .expr .. | .ret .. => []

/-- The slot that a statement binds for those after it in its block. -/
def slot? : Stmt → Option Slot
  | .bind k n _ sp => some (bindingSlot k n sp)
  | _ => none

end Stmt

/-- `b.Stands bs t`: statement `t` stands in `b`. The blocks open there, from the inside out up to
`b`, have bound `bs` before it. -/
inductive Block.Stands : Block → List (List Slot) → Stmt → Prop where
  | here {before t after sp} :
      Block.Stands (.mk (before ++ t :: after) sp) [before.filterMap Stmt.slot?] t
  | inside {before s after sp b bs t} : b ∈ s.blocks → b.Stands bs t →
      Block.Stands (.mk (before ++ s :: after) sp) (bs ++ [before.filterMap Stmt.slot?]) t

/-- Statement `t` stands in the body of `f`. The parameters are a block around the body. -/
def Function.Stands (f : Function) (bs : List (List Slot)) (t : Stmt) : Prop :=
  ∃ b inner, f.body = some b ∧ b.Stands inner t ∧ bs = inner ++ [f.paramSlots]

theorem Function.Stands.only {f : Function} {t : Stmt} {sp : Span}
    (h : f.body = some (.mk [t] sp)) : f.Stands [[], f.paramSlots] t :=
  ⟨_, [[]], h, @Block.Stands.here [] t [] sp, rfl⟩

/-- Expression `d` stands in the body of `f`. -/
def Function.Holds (f : Function) (bs : List (List Slot)) (d : Expr) : Prop :=
  ∃ t e, f.Stands bs t ∧ e ∈ t.exprs ∧ e.Has d

/-- The slot that `n` stands for where blocks have bound `bs`: the nearest of that name, and the
first in its block. -/
def nearest? (bs : List (List Slot)) (n : Name) : Option Slot := bs.findSome? (slotNamed? · n)

/-! ## 3. Scopes -/

namespace Scope

/-- A scope has for each name what the blocks `bs` have for it, block by block. -/
def Shows (σ : Scope) (bs : List (List Slot)) : Prop :=
  List.Forall₂ (fun c b => ∀ n, slotNamed? c n = slotNamed? b n) (σ.innermost :: σ.enclosing) bs

variable {σ : Scope} {b : List Slot} {bs : List (List Slot)}

theorem Shows.find? (h : σ.Shows bs) (n : Name) : σ.find? n = nearest? bs n := by
  have hblocks : ∀ cs ds : List (List Slot),
      List.Forall₂ (fun c b => ∀ n, slotNamed? c n = slotNamed? b n) cs ds →
        cs.findSome? (slotNamed? · n) = ds.findSome? (slotNamed? · n) := by
    intro cs ds h
    induction h with
    | nil => rfl
    | cons hc _ ih => rw [List.findSome?_cons, List.findSome?_cons, hc n, ih]
  exact hblocks _ _ h

theorem name_of_find? {n : Name} {x : Slot} (h : σ.find? n = some x) : x.name = n := by
  obtain ⟨c, -, hc⟩ := List.exists_of_findSome?_eq_some h
  rw [slotNamed?] at hc
  have hname := List.find?_some hc
  exact eq_of_beq hname

theorem Shows.enter (h : σ.Shows bs) : σ.enter.Shows ([] :: bs) := .cons (fun _ => rfl) h

-- A repeated name keeps its first slot, in a scope and in the block that it shows.
theorem Shows.bind (h : σ.Shows (b :: bs)) (s : Slot) : (σ.bind s).Shows ((b ++ [s]) :: bs) := by
  cases h with
  | cons hb hrest =>
    have happend : ∀ c : List Slot, ∀ n, slotNamed? (c ++ [s]) n =
        (slotNamed? c n).or (if s.name = n then some s else none) := by
      intro c n
      rw [slotNamed?, List.find?_append]
      by_cases hn : s.name = n <;> simp [slotNamed?, hn]
    unfold Scope.bind
    cases hr : σ.repeated? s.name with
    | none =>
      refine .cons (fun n => ?_) hrest
      rw [happend, happend, hb n]
    | some first =>
      refine .cons (fun n => ?_) hrest
      rw [happend, ← hb n]
      by_cases hn : s.name = n
      · subst hn
        rw [repeated?] at hr
        rw [hr, Option.some_or]
      · rw [if_neg hn, Option.or_none]

theorem Shows.scopeAfter (h : σ.Shows (b :: bs)) (t : Stmt) :
    (t.scopeAfter σ).Shows ((b ++ t.slot?.toList) :: bs) := by
  cases t with
  | bind k n v sp => exact h.bind (bindingSlot k n sp)
  | _ => simpa [Stmt.scopeAfter, Stmt.slot?] using h

theorem Shows.foldl_scopeAfter (h : σ.Shows (b :: bs)) (ts : List Stmt) :
    (ts.foldl (fun σ t => t.scopeAfter σ) σ).Shows ((b ++ ts.filterMap Stmt.slot?) :: bs) := by
  induction ts generalizing σ b with
  | nil => simpa using h
  | cons t rest ih =>
    have ht := ih (h.scopeAfter t)
    rw [List.append_assoc] at ht
    rw [List.foldl_cons, List.filterMap_eq_flatMap_toList, List.flatMap_cons,
      ← List.filterMap_eq_flatMap_toList]
    exact ht

end Scope

theorem Function.paramScope_shows (f : Function) : f.paramScope.Shows [f.paramSlots] := by
  have hfoldl : ∀ (slots b : List Slot) (σ : Scope), σ.Shows [b] →
      (slots.foldl Scope.bind σ).Shows [b ++ slots] := by
    intro slots
    induction slots with
    | nil =>
      intro b σ h
      simpa using h
    | cons s rest ih =>
      intro b σ h
      have hs := ih _ _ (h.bind s)
      rwa [List.append_assoc] at hs
  exact hfoldl f.paramSlots [] .empty (.cons (fun _ => rfl) .nil)

/-! ## 4. Points -/

theorem Stmt.mem_points_of_exprs {t : Stmt} {e : Expr} (he : e ∈ t.exprs) {m : Mark}
    (hm : m ∈ e.marks) (σ : Scope) : ⟨σ, m⟩ ∈ t.points σ := by
  have hpoint : (⟨σ, m⟩ : Point) ∈ e.points σ := List.mem_map_of_mem hm
  cases t with
  | bind k n v sp =>
    cases List.mem_singleton.1 he
    exact List.mem_append_left _ hpoint
  | assign n v sp =>
    cases List.mem_singleton.1 he
    exact List.mem_cons_of_mem _ hpoint
  | expr v sp =>
    cases List.mem_singleton.1 he
    exact hpoint
  | ret v sp =>
    cases Option.mem_toList.1 he
    exact hpoint
  | ifThen c b sp | loop c b sp =>
    cases List.mem_singleton.1 he
    exact List.mem_append_left _ hpoint
  | ifThenElse c b o sp =>
    cases List.mem_singleton.1 he
    exact List.mem_append_left _ (List.mem_append_left _ hpoint)
  | block b sp => exact absurd he List.not_mem_nil

theorem Stmt.points_of_blocks {s : Stmt} {b : Block} (hb : b ∈ s.blocks) {σ : Scope} {p : Point}
    (hp : p ∈ b.points σ) : p ∈ s.points σ := by
  cases s with
  | ifThen c b' sp | loop c b' sp =>
    cases List.mem_singleton.1 hb
    exact List.mem_append_right _ hp
  | ifThenElse c b' o sp =>
    rcases List.mem_cons.1 hb with rfl | hb
    · exact List.mem_append_left _ (List.mem_append_right _ hp)
    · cases List.mem_singleton.1 hb
      exact List.mem_append_right _ hp
  | block b' sp =>
    cases List.mem_singleton.1 hb
    exact hp
  | _ => exact absurd hb List.not_mem_nil

theorem stmtPoints_append (ss ts : List Stmt) (σ : Scope) :
    stmtPoints σ (ss ++ ts) =
      stmtPoints σ ss ++ stmtPoints (ss.foldl (fun σ t => t.scopeAfter σ) σ) ts := by
  induction ss generalizing σ with
  | nil => rfl
  | cons s rest ih => rw [List.cons_append, stmtPoints, stmtPoints, ih, List.append_assoc]; rfl

-- A statement of a block has its points where the ones before it have bound their slots.
theorem Block.mem_points_of_mem {before after : List Stmt} {t : Stmt} {sp : Span} {σ : Scope}
    {p : Point} (hp : p ∈ t.points (before.foldl (fun σ t => t.scopeAfter σ) σ.enter)) :
    p ∈ (Block.mk (before ++ t :: after) sp).points σ := by
  rw [Block.points, stmtPoints_append]
  exact List.mem_append_right _ (List.mem_append_left _ hp)

theorem Block.Stands.points {b : Block} {bs outer : List (List Slot)} {t : Stmt}
    (h : b.Stands bs t) {σ : Scope} (hσ : σ.Shows outer) :
    ∃ τ, τ.Shows (bs ++ outer) ∧ ∀ p ∈ t.points τ, p ∈ b.points σ := by
  induction h generalizing σ outer with
  | here => exact ⟨_, hσ.enter.foldl_scopeAfter _, fun p => mem_points_of_mem⟩
  | inside hb _ ih =>
    obtain ⟨τ, hτ, hpoints⟩ := ih (hσ.enter.foldl_scopeAfter _)
    rw [List.append_cons] at hτ
    exact ⟨τ, hτ, fun p hp => mem_points_of_mem (Stmt.points_of_blocks hb (hpoints p hp))⟩

namespace Function

variable {f : Function} {bs : List (List Slot)}

theorem Stands.points {t : Stmt} (h : f.Stands bs t) :
    ∃ σ, σ.Shows bs ∧ ∀ p ∈ t.points σ, p ∈ f.points := by
  obtain ⟨b, inner, hb, ht, rfl⟩ := h
  obtain ⟨σ, hσ, hpoints⟩ := ht.points f.paramScope_shows
  refine ⟨σ, hσ, fun p hp => List.mem_append_right _ ?_⟩
  rw [bodyPoints, hb]
  exact hpoints p hp

/-- What stands in a function has a point, with a scope that shows what is bound there. -/
theorem Holds.point {d : Expr} (h : f.Holds bs d) {m : Mark} (hm : d.mark? = some m) :
    ∃ p ∈ f.points, p.mark = m ∧ p.scope.Shows bs := by
  obtain ⟨t, e, ht, he, hd⟩ := h
  obtain ⟨σ, hσ, hpoints⟩ := ht.points
  have hmark : m ∈ e.marks := hd.marks (Expr.mem_marks_of_mark? hm)
  exact ⟨⟨σ, m⟩, hpoints _ (Stmt.mem_points_of_exprs he hmark σ), rfl, hσ⟩

theorem Stands.assign_point {n : Name} {v : Expr} {sp : Span} (h : f.Stands bs (.assign n v sp)) :
    ∃ p ∈ f.points, p.mark = .assign n sp ∧ p.scope.Shows bs := by
  obtain ⟨σ, hσ, hpoints⟩ := h.points
  exact ⟨⟨σ, .assign n sp⟩, hpoints _ List.mem_cons_self, rfl, hσ⟩

end Function

/-! ## 5. Frames -/

/-- What a name stands for in a scope is one of `slots`. -/
def Scope.Within (σ : Scope) (slots : List Slot) : Prop := ∀ n x, σ.find? n = some x → x ∈ slots

section Within

variable {slots : List Slot}

theorem Scope.Within.enter {σ : Scope} (h : σ.Within slots) : σ.enter.Within slots := by
  intro n x hx
  rw [find?_enter] at hx
  exact h n x hx

theorem Scope.Within.bind {σ : Scope} (h : σ.Within slots) {s : Slot}
    (hs : ∀ x, (Point.mk σ (.bind s)).newSlot? = some x → x ∈ slots) :
    (σ.bind s).Within slots := by
  intro n x hx
  rw [find?_bind] at hx
  split at hx
  · cases hr : σ.repeated? s.name with
    | none =>
      rw [hr] at hx
      exact hs x (by simpa [Point.newSlot?, hr] using hx)
    | some first =>
      -- The first slot of the name is the one that it stood for before.
      rw [hr] at hx
      refine h s.name x ?_
      rw [repeated?] at hr
      rw [find?, List.findSome?_cons, hr]
      exact hx
  · exact h n x hx

theorem Scope.Within.scopeAfter {σ : Scope} (h : σ.Within slots) {t : Stmt}
    (hnew : ∀ p ∈ t.points σ, ∀ x, p.newSlot? = some x → x ∈ slots) :
    (t.scopeAfter σ).Within slots := by
  cases t with
  | bind k n v sp =>
    exact h.bind (hnew _ (List.mem_append_right _ List.mem_cons_self))
  | _ => exact h

mutual

theorem Stmt.points_within (t : Stmt) {σ : Scope} (h : σ.Within slots)
    (hnew : ∀ p ∈ t.points σ, ∀ x, p.newSlot? = some x → x ∈ slots) :
    ∀ p ∈ t.points σ, p.scope.Within slots := by
  have hexpr : ∀ e : Expr, ∀ p ∈ e.points σ, p.scope.Within slots := by
    intro e p hp
    obtain ⟨m, -, rfl⟩ := List.mem_map.1 hp
    exact h
  cases t with
  | bind k n v sp =>
    refine List.forall_mem_append.2 ⟨hexpr v, fun p hp => ?_⟩
    cases List.mem_singleton.1 hp
    exact h
  | assign n v sp => exact List.forall_mem_cons.2 ⟨h, hexpr v⟩
  | expr v sp => exact hexpr v
  | ret v sp =>
    cases v with
    | none => exact fun p hp => absurd hp List.not_mem_nil
    | some v => exact hexpr v
  | ifThen c b sp | loop c b sp =>
    have hb := (List.forall_mem_append.1 hnew).2
    exact List.forall_mem_append.2 ⟨hexpr c, b.points_within h hb⟩
  | ifThenElse c b o sp =>
    obtain ⟨hcb, ho⟩ := List.forall_mem_append.1 hnew
    have hb := (List.forall_mem_append.1 hcb).2
    refine List.forall_mem_append.2 ⟨List.forall_mem_append.2 ⟨hexpr c, ?_⟩, o.points_within h ho⟩
    exact b.points_within h hb
  | block b sp => exact b.points_within h hnew

theorem Block.points_within (b : Block) {σ : Scope} (h : σ.Within slots)
    (hnew : ∀ p ∈ b.points σ, ∀ x, p.newSlot? = some x → x ∈ slots) :
    ∀ p ∈ b.points σ, p.scope.Within slots := by
  obtain ⟨ss, sp⟩ := b
  exact stmtPoints_within ss h.enter hnew

theorem stmtPoints_within (ss : List Stmt) {σ : Scope} (h : σ.Within slots)
    (hnew : ∀ p ∈ stmtPoints σ ss, ∀ x, p.newSlot? = some x → x ∈ slots) :
    ∀ p ∈ stmtPoints σ ss, p.scope.Within slots := by
  cases ss with
  | nil => exact fun p hp => absurd hp List.not_mem_nil
  | cons s rest =>
    obtain ⟨hs, hrest⟩ := List.forall_mem_append.1 hnew
    exact List.forall_mem_append.2
      ⟨s.points_within h hs, stmtPoints_within rest (h.scopeAfter hs) hrest⟩

end

-- Binding slots one after another.
theorem slotPoints_within (ss : List Slot) {σ : Scope} (h : σ.Within slots)
    (hnew : ∀ p ∈ slotPoints σ ss, ∀ x, p.newSlot? = some x → x ∈ slots) :
    (∀ p ∈ slotPoints σ ss, p.scope.Within slots) ∧ (ss.foldl Scope.bind σ).Within slots := by
  induction ss generalizing σ with
  | nil => exact ⟨fun p hp => absurd hp List.not_mem_nil, h⟩
  | cons s rest ih =>
    obtain ⟨hs, hrest⟩ := List.forall_mem_cons.1 hnew
    obtain ⟨hpoints, hafter⟩ := ih (h.bind hs) hrest
    exact ⟨List.forall_mem_cons.2 ⟨h, hpoints⟩, hafter⟩

end Within

/-- Whatever a name stands for in a function has a place in its frame. -/
theorem Function.points_within (f : Function) : ∀ p ∈ f.points, p.scope.Within f.slots := by
  have hnew : ∀ p ∈ f.points, ∀ x, p.newSlot? = some x → x ∈ f.slots := fun p hp x hx =>
    List.mem_filterMap.2 ⟨p, hp, hx⟩
  obtain ⟨hparams, hbody⟩ := List.forall_mem_append.1 hnew
  have hempty : Scope.empty.Within f.slots := by
    intro n x hx
    simp [Scope.find?, Scope.empty, slotNamed?] at hx
  obtain ⟨hpoints, hscope⟩ := slotPoints_within f.paramSlots hempty hparams
  refine List.forall_mem_append.2 ⟨hpoints, ?_⟩
  unfold bodyPoints at hbody ⊢
  cases hb : f.body with
  | none => exact fun p hp => absurd hp List.not_mem_nil
  | some b =>
    rw [hb] at hbody
    exact b.points_within hscope hbody

end LateBind

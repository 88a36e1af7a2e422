import LateBind.Proofs.Lexical.Places
import LateBind.Proofs.Lexical.Traversal

/-!
# Statements in order

The statements of a function from left to right, each with what the blocks open there have bound
before it. They are the statements that stand in the function, in the order in which its nodes are
come upon. The points of the function are, one for one, what its parameters and its statements do.
-/

namespace LateBind

/-- A statement where it stands. The blocks open there, from the inside out, have bound `blocks`
before it. -/
structure Standing where
  blocks : List (List Slot)
  stmt : Stmt

mutual

/-- A statement, then those in its blocks, where the blocks around it have bound `bs`. -/
def Stmt.standings (bs : List (List Slot)) (s : Stmt) : List Standing :=
  ⟨bs, s⟩ :: match s with
    | .ifThen _ b _ | .loop _ b _ | .block b _ => b.standings bs
    | .ifThenElse _ b o _ => b.standings bs ++ o.standings bs
    | .bind .. | .assign .. | .expr .. | .ret .. => []

def Block.standings (bs : List (List Slot)) (b : Block) : List Standing :=
  match b with
  | .mk ss _ => stmtStandings [] bs ss

/-- The statements of a block that has bound `here` so far, inside blocks that have bound `bs`. -/
def stmtStandings (here : List Slot) (bs : List (List Slot)) (ss : List Stmt) : List Standing :=
  match ss with
  | [] => []
  | s :: rest => s.standings (here :: bs) ++ stmtStandings (here ++ s.slot?.toList) bs rest

end

/-- The statements of a function from left to right. -/
def Function.standings (f : Function) : List Standing :=
  f.body.elim [] (·.standings [f.paramSlots])

/-! ## 1. Blocks and their statements -/

theorem Block.sizeOf_lt_of_mem_blocks {s : Stmt} {b : Block} (hb : b ∈ s.blocks) :
    sizeOf b < sizeOf s := by
  cases s with
  | ifThen c b' sp | loop c b' sp | block b' sp =>
    cases List.mem_singleton.1 hb
    simp
    omega
  | ifThenElse c b' o sp =>
    rcases List.mem_cons.1 hb with rfl | hb
    · simp
      omega
    · cases List.mem_singleton.1 hb
      simp
      omega
  | _ => exact absurd hb List.not_mem_nil

/-- What holds of a block if it holds of the blocks of its statements holds of every block. -/
theorem Block.induct {P : Block → Prop}
    (h : ∀ ss sp, (∀ s ∈ ss, ∀ b ∈ s.blocks, P b) → P (.mk ss sp)) (b : Block) : P b := by
  obtain ⟨ss, sp⟩ := b
  exact h ss sp fun s hs b hb => Block.induct h b
termination_by sizeOf b
decreasing_by
  have hs := List.sizeOf_lt_of_mem hs
  have hb := sizeOf_lt_of_mem_blocks hb
  simp
  omega

theorem Stmt.standings_eq (s : Stmt) (bs : List (List Slot)) :
    s.standings bs = ⟨bs, s⟩ :: s.blocks.flatMap (·.standings bs) := by
  cases s <;> simp [Stmt.standings, Stmt.blocks]

theorem Stmt.events_eq (s : Stmt) :
    s.events everything = .stmt s :: (s.exprs.flatMap (·.events everything) ++
      s.blocks.flatMap (·.events everything)) := by
  cases s with
  | ret v sp => cases v <;> simp [Stmt.events, Stmt.exprs, Stmt.blocks]
  | _ => simp [Stmt.events, Stmt.exprs, Stmt.blocks]

/-! ## 2. What stands in a function -/

theorem mem_stmtStandings {ss : List Stmt} {here : List Slot} {bs : List (List Slot)}
    {q : Standing} : q ∈ stmtStandings here bs ss ↔ ∃ before s after, ss = before ++ s :: after ∧
      q ∈ s.standings ((here ++ before.filterMap Stmt.slot?) :: bs) := by
  induction ss generalizing here with
  | nil =>
    refine ⟨fun hq => absurd hq List.not_mem_nil, ?_⟩
    rintro ⟨before, s, after, hss, -⟩
    exact absurd hss.symm (List.append_ne_nil_of_right_ne_nil _ (List.cons_ne_nil _ _))
  | cons s rest ih =>
    have hslots : ∀ before : List Stmt, here ++ (s :: before).filterMap Stmt.slot? =
        here ++ s.slot?.toList ++ before.filterMap Stmt.slot? := by
      intro before
      rw [List.append_assoc]
      cases hs : s.slot? <;> simp [hs]
    rw [stmtStandings, List.mem_append, ih]
    constructor
    · rintro (hq | ⟨before, t, after, rfl, hq⟩)
      · exact ⟨[], s, rest, rfl, by simpa using hq⟩
      · exact ⟨s :: before, t, after, rfl, by rwa [hslots]⟩
    · rintro ⟨before, t, after, hss, hq⟩
      cases before with
      | nil =>
        cases hss
        exact .inl (by simpa using hq)
      | cons u before =>
        cases hss
        exact .inr ⟨before, t, after, rfl, by rwa [← hslots]⟩

theorem Block.mem_standings (b : Block) {bs : List (List Slot)} {q : Standing} :
    q ∈ b.standings bs ↔ ∃ inner, b.Stands inner q.stmt ∧ q.blocks = inner ++ bs := by
  induction b using Block.induct generalizing bs with
  | h ss sp ih =>
    rw [Block.standings, mem_stmtStandings]
    constructor
    · rintro ⟨before, s, after, rfl, hq⟩
      rw [s.standings_eq, List.mem_cons, List.mem_flatMap] at hq
      rcases hq with rfl | ⟨b, hb, hq⟩
      · exact ⟨_, .here, rfl⟩
      · obtain ⟨inner, hstands, hblocks⟩ := (ih s (by simp) b hb).1 hq
        exact ⟨_, .inside hb hstands, by simpa using hblocks⟩
    · rintro ⟨inner, hstands, hblocks⟩
      obtain ⟨blocks, t⟩ := q
      cases hstands with
      | @here before _ after _ =>
        refine ⟨before, t, after, rfl, ?_⟩
        rw [t.standings_eq]
        exact List.mem_cons.2 (.inl (by simpa using hblocks))
      | @inside before s after _ b inner _ hb hstands =>
        refine ⟨before, s, after, rfl, ?_⟩
        rw [s.standings_eq]
        refine List.mem_cons_of_mem _ (List.mem_flatMap.2 ⟨b, hb, ?_⟩)
        exact (ih s (by simp) b hb).2 ⟨inner, hstands, by simpa using hblocks⟩

theorem Function.mem_standings {f : Function} {q : Standing} :
    q ∈ f.standings ↔ f.Stands q.blocks q.stmt := by
  unfold Function.standings Function.Stands
  cases f.body with
  | none => simp
  | some b =>
    rw [Option.elim_some, b.mem_standings]
    constructor
    · rintro ⟨inner, hstands, hblocks⟩
      exact ⟨b, inner, rfl, hstands, hblocks⟩
    · rintro ⟨_, inner, hb, hstands, hblocks⟩
      cases hb
      exact ⟨inner, hstands, hblocks⟩

/-! ## 3. Source order -/

/-- The statement that is come upon at a node. -/
def Event.stmt? : Event → Option Stmt
  | .stmt s => some s
  | _ => none

mutual

-- No statement stands in an expression.
theorem Expr.filterMap_stmt?_events (e : Expr) :
    (e.events everything).filterMap Event.stmt? = [] := by
  cases e with
  | literal | reference | functionRef | closure | newObject => rfl
  | call n args site r s => exact filterMap_stmt?_exprEvents args
  | method x n args site t s =>
    have happend : ((x.events everything) ++ exprEvents everything args).filterMap Event.stmt? = [] := by
      rw [List.filterMap_append, x.filterMap_stmt?_events, filterMap_stmt?_exprEvents args]
      rfl
    exact happend
  | binary op l r s =>
    have happend : ((l.events everything) ++ r.events everything).filterMap Event.stmt? = [] := by
      rw [List.filterMap_append, l.filterMap_stmt?_events, r.filterMap_stmt?_events]
      rfl
    exact happend
  | unary op x s => exact x.filterMap_stmt?_events

theorem filterMap_stmt?_exprEvents (es : List Expr) :
    (exprEvents everything es).filterMap Event.stmt? = [] := by
  cases es with
  | nil => rfl
  | cons e rest =>
    rw [exprEvents, List.filterMap_append, e.filterMap_stmt?_events,
      filterMap_stmt?_exprEvents rest]
    rfl

end

theorem Block.map_stmt_standings (b : Block) (bs : List (List Slot)) :
    (b.standings bs).map (·.stmt) = (b.events everything).filterMap Event.stmt? := by
  induction b using Block.induct generalizing bs with
  | h ss sp ih =>
    show _ = (stmtEvents everything ss).filterMap Event.stmt?
    rw [Block.standings]
    generalize ([] : List Slot) = here
    induction ss generalizing here with
    | nil => rfl
    | cons s rest ihrest =>
      have hblocks : (s.blocks.flatMap (·.standings (here :: bs))).map (·.stmt) =
          (s.blocks.flatMap (·.events everything)).filterMap Event.stmt? := by
        rw [List.map_flatMap, List.filterMap_flatMap]
        exact List.flatMap_congr fun b hb => ih s List.mem_cons_self b hb _
      have hexprs : (s.exprs.flatMap (·.events everything)).filterMap Event.stmt? = [] := by
        rw [List.filterMap_flatMap]
        exact List.flatMap_eq_nil_iff.2 fun e _ => e.filterMap_stmt?_events
      have hs : (s.standings (here :: bs)).map (·.stmt) =
          (s.events everything).filterMap Event.stmt? := by
        rw [s.standings_eq, s.events_eq, List.map_cons, hblocks,
          List.filterMap_cons_some (f := Event.stmt?) (b := s) rfl, List.filterMap_append, hexprs,
          List.nil_append]
      rw [stmtStandings, stmtEvents, List.map_append, List.filterMap_append, hs,
        ihrest fun t ht => ih t (List.mem_cons_of_mem s ht)]

/-- The statements of a function are those come upon among its nodes, in order. -/
theorem Function.map_stmt_standings (f : Function) (id : FunctionId) :
    f.standings.map (·.stmt) = (f.events everything id).filterMap Event.stmt? := by
  unfold Function.standings Function.events
  cases f.body with
  | none => rfl
  | some b => exact b.map_stmt_standings _

/-! ## 4. What statements do -/

/-- The marks of a statement, apart from those in its blocks. -/
def Stmt.marks : Stmt → List Mark
  | .bind k n v sp => v.marks ++ [.bind (bindingSlot k n sp)]
  | .assign n v sp => .assign n sp :: v.marks
  | s => s.exprs.flatMap Expr.marks

/-- A mark where the blocks that are open have bound `blocks`, from the inside out. -/
structure Doing where
  blocks : List (List Slot)
  mark : Mark

/-- What a statement does itself. -/
def Standing.doings (q : Standing) : List Doing := q.stmt.marks.map (⟨q.blocks, ·⟩)

/-- Slots bound one after another, each with those bound before it. -/
def boundInTurn (before : List Slot) : List Slot → List (List Slot × Slot)
  | [] => []
  | x :: rest => (before, x) :: boundInTurn (before ++ [x]) rest

/-- What a function does: it binds its parameters, then come its statements. -/
def Function.doings (f : Function) : List Doing :=
  (boundInTurn [] f.paramSlots).map (fun e => ⟨[e.1], .bind e.2⟩) ++
    f.standings.flatMap Standing.doings

/-- A point has the mark of `d`, and a scope that shows what is bound there. -/
def Point.Shows (p : Point) (d : Doing) : Prop := p.mark = d.mark ∧ p.scope.Shows d.blocks

theorem Stmt.points_eq (s : Stmt) (σ : Scope) :
    s.points σ = s.marks.map (⟨σ, ·⟩) ++ s.blocks.flatMap (·.points σ) := by
  cases s with
  | ret v sp => cases v <;> simp [Stmt.points, Stmt.marks, Stmt.exprs, Stmt.blocks, Expr.points]
  | _ => simp [Stmt.points, Stmt.marks, Stmt.exprs, Stmt.blocks, Expr.points]

theorem forall₂_flatMap {α β γ : Type} {R : β → γ → Prop} {as : List α} {g : α → List β}
    {k : α → List γ} (h : ∀ a ∈ as, List.Forall₂ R (g a) (k a)) :
    List.Forall₂ R (as.flatMap g) (as.flatMap k) := by
  induction as with
  | nil => exact .nil
  | cons a rest ih =>
    exact List.rel_append (h a List.mem_cons_self) (ih fun b hb => h b (List.mem_cons_of_mem a hb))

theorem Block.points_shows (b : Block) {σ : Scope} {bs : List (List Slot)} (h : σ.Shows bs) :
    List.Forall₂ Point.Shows (b.points σ) ((b.standings bs).flatMap Standing.doings) := by
  induction b using Block.induct generalizing σ bs with
  | h ss sp ih =>
    rw [Block.points, Block.standings]
    have hσ := h.enter
    revert hσ
    generalize σ.enter = τ, ([] : List Slot) = here
    intro hτ
    induction ss generalizing τ here with
    | nil => exact .nil
    | cons s rest ihrest =>
      rw [stmtPoints, stmtStandings, List.flatMap_append]
      refine List.rel_append ?_ (ihrest (fun t ht => ih t (List.mem_cons_of_mem s ht)) _ _
        (hτ.scopeAfter s))
      rw [s.points_eq, s.standings_eq, List.flatMap_cons, List.flatMap_assoc]
      refine List.rel_append ?_ (forall₂_flatMap fun b hb => ih s List.mem_cons_self b hb hτ)
      rw [Standing.doings, List.forall₂_map_left_iff, List.forall₂_map_right_iff, List.forall₂_same]
      exact fun a _ => ⟨rfl, hτ⟩

theorem slotPoints_shows (slots : List Slot) {σ : Scope} {here : List Slot} (h : σ.Shows [here]) :
    List.Forall₂ Point.Shows (slotPoints σ slots)
      ((boundInTurn here slots).map fun e => ⟨[e.1], .bind e.2⟩) := by
  induction slots generalizing σ here with
  | nil => exact .nil
  | cons x rest ih => exact .cons ⟨rfl, h⟩ (ih (h.bind x))

/-- The points of a function are what it does, one for one and in order. -/
theorem Function.points_shows (f : Function) : List.Forall₂ Point.Shows f.points f.doings := by
  refine List.rel_append (slotPoints_shows _ (.cons (fun _ => rfl) .nil)) ?_
  unfold Function.bodyPoints Function.standings
  cases f.body with
  | none => exact .nil
  | some b => exact b.points_shows f.paramScope_shows

-- What a pass makes of the points it makes of what the function does.
theorem Function.filterMap_points_eq {α : Type} (f : Function) {g : Point → Option α}
    {k : Doing → Option α} (h : ∀ p d, d ∈ f.doings → p.Shows d → g p = k d) :
    f.points.filterMap g = f.doings.filterMap k := by
  rw [List.filterMap_eq_flatMap_toList, List.filterMap_eq_flatMap_toList]
  exact flatMap_of_forall₂ f.points_shows fun p d hd hp => congrArg Option.toList (h p d hd hp)

end LateBind

import LateBind.Proofs.Lexical.Blocks

/-!
# The nodes of a function

The full sequence of nodes has the expressions that stand in a function and no others, and its
expressions leave the marks that are at the points of the function, one for one and in order.
-/

namespace LateBind

/-- A reader that asks for everything. -/
abbrev everything : Hook → Bool := fun _ => false

@[simp] theorem Event.above_everything (e : Event) (below : List Event) :
    e.above everything below = e :: below := rfl

/-! ## 1. What stands in a function is come upon -/

theorem mem_exprEvents {es : List Expr} {v : Event} :
    v ∈ exprEvents everything es ↔ ∃ e ∈ es, v ∈ e.events everything := by
  induction es with
  | nil => simp [exprEvents]
  | cons e rest ih => simp [exprEvents, ih]

theorem Expr.self_mem_events (e : Expr) : .expr e ∈ e.events everything := by
  cases e <;> exact List.mem_cons_self

theorem Expr.Has.mem_events {e d : Expr} (h : e.Has d) : .expr d ∈ e.events everything := by
  induction h with
  | self => exact Expr.self_mem_events _
  | argument ha _ ih =>
    have hargs := mem_exprEvents.2 ⟨_, ha, ih⟩
    exact List.mem_cons_of_mem _ (List.mem_cons_of_mem _ hargs)
  | receiver _ ih =>
    exact List.mem_cons_of_mem _ (List.mem_cons_of_mem _ (List.mem_append_left _ ih))
  | methodArgument ha _ ih =>
    have hargs := mem_exprEvents.2 ⟨_, ha, ih⟩
    exact List.mem_cons_of_mem _ (List.mem_cons_of_mem _ (List.mem_append_right _ hargs))
  | left _ ih => exact List.mem_cons_of_mem _ (List.mem_append_left _ ih)
  | right _ ih => exact List.mem_cons_of_mem _ (List.mem_append_right _ ih)
  | operand _ ih => exact List.mem_cons_of_mem _ ih

theorem mem_stmtEvents {ss : List Stmt} {v : Event} :
    v ∈ stmtEvents everything ss ↔ ∃ s ∈ ss, v ∈ s.events everything := by
  induction ss with
  | nil => simp [stmtEvents]
  | cons s rest ih => simp [stmtEvents, ih]

theorem Stmt.events_of_exprs {t : Stmt} {e : Expr} (he : e ∈ t.exprs) {v : Event}
    (hv : v ∈ e.events everything) : v ∈ t.events everything := by
  cases t with
  | bind | assign | expr =>
    cases List.mem_singleton.1 he
    exact List.mem_cons_of_mem _ hv
  | ret x sp =>
    cases Option.mem_toList.1 he
    exact List.mem_cons_of_mem _ hv
  | ifThen | loop =>
    cases List.mem_singleton.1 he
    exact List.mem_cons_of_mem _ (List.mem_append_left _ hv)
  | ifThenElse =>
    cases List.mem_singleton.1 he
    exact List.mem_cons_of_mem _ (List.mem_append_left _ (List.mem_append_left _ hv))
  | block => exact absurd he List.not_mem_nil

theorem Stmt.events_of_blocks {s : Stmt} {b : Block} (hb : b ∈ s.blocks) {v : Event}
    (hv : v ∈ b.events everything) : v ∈ s.events everything := by
  cases s with
  | ifThen | loop =>
    cases List.mem_singleton.1 hb
    exact List.mem_cons_of_mem _ (List.mem_append_right _ hv)
  | ifThenElse c b' o sp =>
    rcases List.mem_cons.1 hb with rfl | hb
    · exact List.mem_cons_of_mem _ (List.mem_append_left _ (List.mem_append_right _ hv))
    · cases List.mem_singleton.1 hb
      exact List.mem_cons_of_mem _ (List.mem_append_right _ hv)
  | block =>
    cases List.mem_singleton.1 hb
    exact List.mem_cons_of_mem _ hv
  | _ => exact absurd hb List.not_mem_nil

theorem Block.Stands.events {b : Block} {bs : List (List Slot)} {t : Stmt} (h : b.Stands bs t)
    {v : Event} (hv : v ∈ t.events everything) : v ∈ b.events everything := by
  have hstmt : ∀ {before after : List Stmt} {s : Stmt} {sp : Span}, v ∈ s.events everything →
      v ∈ (Block.mk (before ++ s :: after) sp).events everything := fun hv =>
    List.mem_cons_of_mem _
      (mem_stmtEvents.2 ⟨_, List.mem_append_right _ List.mem_cons_self, hv⟩)
  induction h with
  | here => exact hstmt hv
  | inside hb _ ih => exact hstmt (Stmt.events_of_blocks hb (ih hv))

theorem Function.Holds.mem_events {f : Function} {bs : List (List Slot)} {d : Expr}
    (h : f.Holds bs d) (id : FunctionId) : .expr d ∈ f.events everything id := by
  obtain ⟨t, e, ⟨b, inner, hb, ht, rfl⟩, he, hd⟩ := h
  refine List.mem_cons_of_mem _ ?_
  simp only [hb]
  exact ht.events (Stmt.events_of_exprs he hd.mem_events)

/-! ## 2. Only that is come upon -/

mutual

theorem Expr.has_of_mem_events (e : Expr) {d : Expr} (h : .expr d ∈ e.events everything) :
    e.Has d := by
  cases e with
  | literal v s | reference n s | closure f s =>
    rcases List.mem_cons.1 h with h | h
    · cases h
      exact .self
    · cases List.mem_singleton.1 h
  | functionRef n s | newObject s =>
    cases List.mem_singleton.1 h
    exact .self
  | call n args site r s =>
    rcases List.mem_cons.1 h with h | h
    · cases h
      exact .self
    · rcases List.mem_cons.1 h with h | h
      · cases h
      · obtain ⟨a, ha, had⟩ := exists_has_of_mem_events args h
        exact .argument ha had
  | method x n args site t s =>
    rcases List.mem_cons.1 h with h | h
    · cases h
      exact .self
    · rcases List.mem_cons.1 h with h | h
      · cases h
      · rcases List.mem_append.1 h with h | h
        · exact .receiver (x.has_of_mem_events h)
        · obtain ⟨a, ha, had⟩ := exists_has_of_mem_events args h
          exact .methodArgument ha had
  | binary op l r s =>
    rcases List.mem_cons.1 h with h | h
    · cases h
      exact .self
    · rcases List.mem_append.1 h with h | h
      · exact .left (l.has_of_mem_events h)
      · exact .right (r.has_of_mem_events h)
  | unary op x s =>
    rcases List.mem_cons.1 h with h | h
    · cases h
      exact .self
    · exact .operand (x.has_of_mem_events h)

theorem exists_has_of_mem_events (es : List Expr) {d : Expr}
    (h : .expr d ∈ exprEvents everything es) : ∃ a ∈ es, a.Has d := by
  cases es with
  | nil => exact absurd h List.not_mem_nil
  | cons e rest =>
    rcases List.mem_append.1 h with h | h
    · exact ⟨e, List.mem_cons_self, e.has_of_mem_events h⟩
    · obtain ⟨a, ha, had⟩ := exists_has_of_mem_events rest h
      exact ⟨a, List.mem_cons_of_mem e ha, had⟩

end

/-- Expression `d` stands in block `b`. -/
def Block.Holds (b : Block) (d : Expr) : Prop := ∃ bs t e, b.Stands bs t ∧ e ∈ t.exprs ∧ e.Has d

/-- Expression `d` stands in statement `t`, in a block inside it or in none. -/
def Stmt.Holds (t : Stmt) (d : Expr) : Prop :=
  (∃ e ∈ t.exprs, e.Has d) ∨ ∃ b ∈ t.blocks, b.Holds d

theorem Stmt.Holds.inBlock {t : Stmt} {d : Expr} (h : t.Holds d) (before after : List Stmt)
    (sp : Span) : (Block.mk (before ++ t :: after) sp).Holds d := by
  rcases h with ⟨e, he, hd⟩ | ⟨b, hb, bs, u, e, hu, he, hd⟩
  · exact ⟨_, t, e, .here, he, hd⟩
  · exact ⟨_, u, e, .inside hb hu, he, hd⟩

mutual

theorem Stmt.holds_of_mem_events (t : Stmt) {d : Expr} (h : .expr d ∈ t.events everything) :
    t.Holds d := by
  cases t with
  | bind k n v sp | assign n v sp | expr v sp =>
    rcases List.mem_cons.1 h with h | h
    · cases h
    · exact .inl ⟨v, List.mem_singleton_self v, v.has_of_mem_events h⟩
  | ret v sp =>
    rcases List.mem_cons.1 h with h | h
    · cases h
    · cases v with
      | none => exact absurd h List.not_mem_nil
      | some v => exact .inl ⟨v, List.mem_singleton_self v, v.has_of_mem_events h⟩
  | ifThen c b sp | loop c b sp =>
    rcases List.mem_cons.1 h with h | h
    · cases h
    · rcases List.mem_append.1 h with h | h
      · exact .inl ⟨c, List.mem_singleton_self c, c.has_of_mem_events h⟩
      · exact .inr ⟨b, List.mem_singleton_self b, b.holds_of_mem_events h⟩
  | ifThenElse c b o sp =>
    rcases List.mem_cons.1 h with h | h
    · cases h
    · rcases List.mem_append.1 h with h | h
      · rcases List.mem_append.1 h with h | h
        · exact .inl ⟨c, List.mem_singleton_self c, c.has_of_mem_events h⟩
        · exact .inr ⟨b, List.mem_cons_self, b.holds_of_mem_events h⟩
      · exact .inr ⟨o, List.mem_cons_of_mem b (List.mem_singleton_self o), o.holds_of_mem_events h⟩
  | block b sp =>
    rcases List.mem_cons.1 h with h | h
    · cases h
    · exact .inr ⟨b, List.mem_singleton_self b, b.holds_of_mem_events h⟩

theorem Block.holds_of_mem_events (b : Block) {d : Expr} (h : .expr d ∈ b.events everything) :
    b.Holds d := by
  obtain ⟨ss, sp⟩ := b
  rcases List.mem_cons.1 h with h | h
  · cases h
  · obtain ⟨before, t, after, rfl, ht⟩ := exists_holds_of_mem_events ss h
    exact ht.inBlock before after sp

theorem exists_holds_of_mem_events (ss : List Stmt) {d : Expr}
    (h : .expr d ∈ stmtEvents everything ss) :
    ∃ before t after, ss = before ++ t :: after ∧ t.Holds d := by
  cases ss with
  | nil => exact absurd h List.not_mem_nil
  | cons s rest =>
    rcases List.mem_append.1 h with h | h
    · exact ⟨[], s, rest, rfl, s.holds_of_mem_events h⟩
    · obtain ⟨before, t, after, rfl, ht⟩ := exists_holds_of_mem_events rest h
      exact ⟨s :: before, t, after, rfl, ht⟩

end

/-- The sequence of nodes of a function has just the expressions that stand in it. -/
theorem Function.mem_events_iff {f : Function} (id : FunctionId) {d : Expr} :
    .expr d ∈ f.events everything id ↔ ∃ bs, f.Holds bs d := by
  constructor
  · intro h
    rcases List.mem_cons.1 h with h | h
    · cases h
    · cases hb : f.body with
      | none =>
        simp only [hb] at h
        exact absurd h List.not_mem_nil
      | some b =>
        simp only [hb] at h
        obtain ⟨inner, t, e, ht, he, hd⟩ := b.holds_of_mem_events h
        exact ⟨_, t, e, ⟨b, inner, hb, ht, rfl⟩, he, hd⟩
  · rintro ⟨bs, h⟩
    exact h.mem_events id

/-! ## 3. Marks -/

/-- The mark that a node leaves if it is an expression. -/
def Event.mark? : Event → Option Mark
  | .expr e => e.mark?
  | _ => none

/-- The marks that expression nodes leave, in order. -/
def marksMade (vs : List Event) : List Mark := vs.filterMap Event.mark?

theorem marksMade_append (vs ws : List Event) :
    marksMade (vs ++ ws) = marksMade vs ++ marksMade ws :=
  List.filterMap_append

mutual

theorem Expr.marksMade_events (e : Expr) : marksMade (e.events everything) = e.marks := by
  cases e with
  | literal | reference | functionRef | closure | newObject => rfl
  | call n args site r s => exact congrArg _ (marksMade_exprEvents args)
  | method x n args site t s =>
    rw [Expr.marks, ← x.marksMade_events, ← marksMade_exprEvents args, ← marksMade_append]
    rfl
  | binary op l r s =>
    rw [Expr.marks, ← l.marksMade_events, ← r.marksMade_events, ← marksMade_append]
    rfl
  | unary op x s => exact x.marksMade_events

theorem marksMade_exprEvents (es : List Expr) :
    marksMade (exprEvents everything es) = exprMarks es := by
  cases es with
  | nil => rfl
  | cons e rest =>
    rw [exprEvents, exprMarks, marksMade_append, e.marksMade_events, marksMade_exprEvents rest]

end

/-- Whether a mark is that of a statement or a parameter, which binds or assigns. -/
def Mark.ofStatement : Mark → Bool
  | .bind _ | .assign .. => true
  | .read .. | .call .. | .method .. | .closure .. => false

/-- The marks of expressions at points, in order. -/
def marksAlong (ps : List Point) : List Mark := (ps.map (·.mark)).filter (!·.ofStatement)

theorem marksAlong_append (ps qs : List Point) :
    marksAlong (ps ++ qs) = marksAlong ps ++ marksAlong qs := by
  rw [marksAlong, List.map_append, List.filter_append]
  rfl

theorem Expr.ofStatement_of_mark? {e : Expr} {a : Mark} (h : e.mark? = some a) :
    a.ofStatement = false := by
  cases e <;> cases h <;> rfl

theorem Expr.marksAlong_points (e : Expr) (σ : Scope) :
    marksAlong (e.points σ) = marksMade (e.events everything) := by
  rw [marksAlong, points, List.map_map, e.marksMade_events]
  refine (congrArg (List.filter _) (List.map_id e.marks)).trans (List.filter_eq_self.2 fun a ha => ?_)
  rw [← e.marksMade_events] at ha
  obtain ⟨v, -, hv⟩ := List.mem_filterMap.1 ha
  cases v with
  | expr d => rw [ofStatement_of_mark? hv]; rfl
  | _ => cases hv

mutual

theorem Stmt.marksAlong_points (s : Stmt) (σ : Scope) :
    marksAlong (s.points σ) = marksMade (s.events everything) := by
  cases s with
  | bind k n v sp =>
    rw [Stmt.points, marksAlong_append, v.marksAlong_points]
    exact List.append_nil _
  | assign n v sp | expr v sp => exact v.marksAlong_points σ
  | ret v sp =>
    cases v with
    | none => rfl
    | some v => exact v.marksAlong_points σ
  | ifThen c b sp | loop c b sp =>
    rw [Stmt.points, marksAlong_append, c.marksAlong_points, b.marksAlong_points,
      ← marksMade_append]
    rfl
  | ifThenElse c b o sp =>
    rw [Stmt.points, marksAlong_append, marksAlong_append, c.marksAlong_points,
      b.marksAlong_points, o.marksAlong_points, ← marksMade_append, ← marksMade_append]
    rfl
  | block b sp => exact b.marksAlong_points σ

theorem Block.marksAlong_points (b : Block) (σ : Scope) :
    marksAlong (b.points σ) = marksMade (b.events everything) := by
  obtain ⟨ss, sp⟩ := b
  exact marksAlong_stmtPoints ss σ.enter

theorem marksAlong_stmtPoints (ss : List Stmt) (σ : Scope) :
    marksAlong (stmtPoints σ ss) = marksMade (stmtEvents everything ss) := by
  cases ss with
  | nil => rfl
  | cons s rest =>
    rw [stmtPoints, stmtEvents, marksAlong_append, marksMade_append, s.marksAlong_points,
      marksAlong_stmtPoints rest]

end

/-- The expressions of a function leave their marks at its points. -/
theorem Function.marksAlong_points (f : Function) (id : FunctionId) :
    marksAlong f.points = marksMade (f.events everything id) := by
  have hslots : ∀ (slots : List Slot) (σ : Scope), marksAlong (slotPoints σ slots) = [] := by
    intro slots
    induction slots with
    | nil => exact fun _ => rfl
    | cons s rest ih => exact fun σ => ih (σ.bind s)
  rw [points, marksAlong_append, hslots, List.nil_append, bodyPoints, events,
    Event.above_everything]
  cases f.body with
  | none => rfl
  | some b => exact b.marksAlong_points f.paramScope

/-! ## 4. Closures -/

/-- The closure that an expression node makes. -/
def Event.closure? : Event → Option FunctionId
  | .expr (.closure c _) => some c
  | _ => none

/-- The closure made at a mark. -/
def Mark.closure? : Mark → Option FunctionId
  | .closure c _ => some c
  | _ => none

/-- The closures that nodes make, in order. -/
def closuresMade (vs : List Event) : List FunctionId := vs.filterMap Event.closure?

/-- The closures made at marks, in order. -/
def closuresAt (ms : List Mark) : List FunctionId := ms.filterMap Mark.closure?

/-- The closures made at points, in order. -/
def closuresAlong (ps : List Point) : List FunctionId := closuresAt (ps.map (·.mark))

theorem closuresMade_eq (vs : List Event) : closuresMade vs = closuresAt (marksMade vs) := by
  rw [closuresAt, marksMade, List.filterMap_filterMap, closuresMade]
  refine List.filterMap_congr fun v _ => ?_
  cases v with
  | expr e => cases e <;> rfl
  | _ => rfl

theorem closuresAlong_eq (ps : List Point) : closuresAlong ps = closuresAt (marksAlong ps) := by
  rw [closuresAlong, closuresAt, closuresAt, marksAlong, List.filterMap_filter]
  refine List.filterMap_congr fun a _ => ?_
  cases a <;> rfl

theorem Function.closuresAlong_points (f : Function) (id : FunctionId) :
    closuresAlong f.points = closuresMade (f.events everything id) := by
  rw [closuresAlong_eq, f.marksAlong_points id, ← closuresMade_eq]

end LateBind

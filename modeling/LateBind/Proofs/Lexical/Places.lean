import LateBind.Lexical.Point
import Mathlib.Data.List.Forall2

/-!
# Places

Where something stands in a function's code, and which names are bound there: the function's
parameters, and what the statements before it bind in the blocks around it. This is said of the
tree alone. The scopes that the passes carry along bind just these names.
-/

namespace LateBind

/-! ## 1. What stands where -/

/-- The names that a statement binds for those after it in its block. -/
def Stmt.names : Stmt → List Name
  | .bind _ n _ _ => [n]
  | _ => []

mutual

/-- `s.Does ns m`: `m` stands in `s`, where blocks inside `s` have bound `ns`. -/
inductive Stmt.Does : Stmt → List Name → Mark → Prop where
  | value {k n v sp m} : m ∈ v.marks → Stmt.Does (.bind k n v sp) [] m
  | bind {k n v sp} : Stmt.Does (.bind k n v sp) [] (.bind (bindingSlot k n sp))
  | assign {n v sp} : Stmt.Does (.assign n v sp) [] (.assign n sp)
  | assigned {n v sp m} : m ∈ v.marks → Stmt.Does (.assign n v sp) [] m
  | expr {v sp m} : m ∈ v.marks → Stmt.Does (.expr v sp) [] m
  | ret {v sp m} : m ∈ v.marks → Stmt.Does (.ret (some v) sp) [] m
  | ifCondition {c b sp m} : m ∈ c.marks → Stmt.Does (.ifThen c b sp) [] m
  | ifBody {c b sp ns m} : b.Does ns m → Stmt.Does (.ifThen c b sp) ns m
  | elseCondition {c b o sp m} : m ∈ c.marks → Stmt.Does (.ifThenElse c b o sp) [] m
  | elseBody {c b o sp ns m} : b.Does ns m → Stmt.Does (.ifThenElse c b o sp) ns m
  | elseOther {c b o sp ns m} : o.Does ns m → Stmt.Does (.ifThenElse c b o sp) ns m
  | loopCondition {c b sp m} : m ∈ c.marks → Stmt.Does (.loop c b sp) [] m
  | loopBody {c b sp ns m} : b.Does ns m → Stmt.Does (.loop c b sp) ns m
  | block {b sp ns m} : b.Does ns m → Stmt.Does (.block b sp) ns m

/-- `b.Does ns m`: `m` stands in `b`, where the statements before it in `b` and in the blocks inside
`b` around it have bound `ns`. -/
inductive Block.Does : Block → List Name → Mark → Prop where
  | mk {before s after sp ns m} : s.Does ns m →
      Block.Does (.mk (before ++ s :: after) sp) (before.flatMap Stmt.names ++ ns) m

end

/-- `m` stands in the body of `f`, where `ns` are bound. -/
def Function.Does (f : Function) (ns : List Name) (m : Mark) : Prop :=
  ∃ b inner, f.body = some b ∧ b.Does inner m ∧ ns = f.params ++ inner

/-! ## 2. From left to right -/

/-- What stands at a place, and the names bound there. -/
structure Place where
  bound : List Name
  mark : Mark

mutual

/-- What stands in a statement from left to right, where `ns` are bound around it. -/
def Stmt.walk (ns : List Name) (s : Stmt) : List Place :=
  match s with
  | .bind k n v sp => v.marks.map (⟨ns, ·⟩) ++ [⟨ns, .bind (bindingSlot k n sp)⟩]
  | .assign n v sp => ⟨ns, .assign n sp⟩ :: v.marks.map (⟨ns, ·⟩)
  | .expr v _ => v.marks.map (⟨ns, ·⟩)
  | .ret v _ => v.elim [] (·.marks.map (⟨ns, ·⟩))
  | .ifThen c b _ => c.marks.map (⟨ns, ·⟩) ++ b.walk ns
  | .ifThenElse c b o _ => c.marks.map (⟨ns, ·⟩) ++ b.walk ns ++ o.walk ns
  | .loop c b _ => c.marks.map (⟨ns, ·⟩) ++ b.walk ns
  | .block b _ => b.walk ns

def Block.walk (ns : List Name) (b : Block) : List Place :=
  match b with
  | .mk ss _ => stmtWalk ns ss

def stmtWalk (ns : List Name) (ss : List Stmt) : List Place :=
  match ss with
  | [] => []
  | s :: rest => s.walk ns ++ stmtWalk (ns ++ s.names) rest

end

/-- What stands in the body of a function from left to right. -/
def Function.walk (f : Function) : List Place := f.body.elim [] (·.walk f.params)

theorem mem_map_place {ns : List Name} {ms : List Mark} {q : Place} :
    q ∈ ms.map (⟨ns, ·⟩) ↔ q.mark ∈ ms ∧ q.bound = ns := by
  rw [List.mem_map]
  constructor
  · rintro ⟨m, hm, rfl⟩
    exact ⟨hm, rfl⟩
  · rintro ⟨hm, rfl⟩
    exact ⟨q.mark, hm, rfl⟩

mutual

theorem Stmt.mem_walk (s : Stmt) {ns : List Name} {q : Place} :
    q ∈ s.walk ns ↔ ∃ inner, s.Does inner q.mark ∧ q.bound = ns ++ inner := by
  cases s with
  | bind k n v sp =>
    rw [Stmt.walk, List.mem_append, mem_map_place, List.mem_singleton]
    constructor
    · rintro (⟨hm, hq⟩ | rfl)
      · exact ⟨[], .value hm, by simpa using hq⟩
      · exact ⟨[], .bind, (List.append_nil ns).symm⟩
    · rintro ⟨inner, hd, hq⟩
      obtain ⟨bound, mark⟩ := q
      cases hd with
      | value hm => exact .inl ⟨hm, by simpa using hq⟩
      | bind => exact .inr (by simpa using hq)
  | assign n v sp =>
    rw [Stmt.walk, List.mem_cons, mem_map_place]
    constructor
    · rintro (rfl | ⟨hm, hq⟩)
      · exact ⟨[], .assign, (List.append_nil ns).symm⟩
      · exact ⟨[], .assigned hm, by simpa using hq⟩
    · rintro ⟨inner, hd, hq⟩
      obtain ⟨bound, mark⟩ := q
      cases hd with
      | assign => exact .inl (by simpa using hq)
      | assigned hm => exact .inr ⟨hm, by simpa using hq⟩
  | expr v sp =>
    rw [Stmt.walk, mem_map_place]
    constructor
    · rintro ⟨hm, hq⟩
      exact ⟨[], .expr hm, by simpa using hq⟩
    · rintro ⟨inner, hd, hq⟩
      cases hd with
      | expr hm => exact ⟨hm, by simpa using hq⟩
  | ret v sp =>
    cases v with
    | none =>
      refine ⟨fun hq => absurd hq List.not_mem_nil, ?_⟩
      rintro ⟨inner, hd, hq⟩
      cases hd
    | some v =>
      rw [Stmt.walk, Option.elim_some, mem_map_place]
      constructor
      · rintro ⟨hm, hq⟩
        exact ⟨[], .ret hm, by simpa using hq⟩
      · rintro ⟨inner, hd, hq⟩
        cases hd with
        | ret hm => exact ⟨hm, by simpa using hq⟩
  | ifThen c b sp =>
    rw [Stmt.walk, List.mem_append, mem_map_place, b.mem_walk]
    constructor
    · rintro (⟨hm, hq⟩ | ⟨inner, hd, hq⟩)
      · exact ⟨[], .ifCondition hm, by simpa using hq⟩
      · exact ⟨inner, .ifBody hd, hq⟩
    · rintro ⟨inner, hd, hq⟩
      cases hd with
      | ifCondition hm => exact .inl ⟨hm, by simpa using hq⟩
      | ifBody hd => exact .inr ⟨inner, hd, hq⟩
  | ifThenElse c b o sp =>
    rw [Stmt.walk, List.mem_append, List.mem_append, mem_map_place, b.mem_walk, o.mem_walk]
    constructor
    · rintro ((⟨hm, hq⟩ | ⟨inner, hd, hq⟩) | ⟨inner, hd, hq⟩)
      · exact ⟨[], .elseCondition hm, by simpa using hq⟩
      · exact ⟨inner, .elseBody hd, hq⟩
      · exact ⟨inner, .elseOther hd, hq⟩
    · rintro ⟨inner, hd, hq⟩
      cases hd with
      | elseCondition hm => exact .inl (.inl ⟨hm, by simpa using hq⟩)
      | elseBody hd => exact .inl (.inr ⟨inner, hd, hq⟩)
      | elseOther hd => exact .inr ⟨inner, hd, hq⟩
  | loop c b sp =>
    rw [Stmt.walk, List.mem_append, mem_map_place, b.mem_walk]
    constructor
    · rintro (⟨hm, hq⟩ | ⟨inner, hd, hq⟩)
      · exact ⟨[], .loopCondition hm, by simpa using hq⟩
      · exact ⟨inner, .loopBody hd, hq⟩
    · rintro ⟨inner, hd, hq⟩
      cases hd with
      | loopCondition hm => exact .inl ⟨hm, by simpa using hq⟩
      | loopBody hd => exact .inr ⟨inner, hd, hq⟩
  | block b sp =>
    rw [Stmt.walk, b.mem_walk]
    constructor
    · rintro ⟨inner, hd, hq⟩
      exact ⟨inner, .block hd, hq⟩
    · rintro ⟨inner, hd, hq⟩
      cases hd with
      | block hd => exact ⟨inner, hd, hq⟩

theorem Block.mem_walk (b : Block) {ns : List Name} {q : Place} :
    q ∈ b.walk ns ↔ ∃ inner, b.Does inner q.mark ∧ q.bound = ns ++ inner := by
  obtain ⟨ss, sp⟩ := b
  rw [Block.walk, mem_stmtWalk ss]
  constructor
  · rintro ⟨before, s, after, inner, rfl, hd, hq⟩
    exact ⟨_, .mk hd, by rw [hq, List.append_assoc]⟩
  · rintro ⟨inner, hd, hq⟩
    cases hd with
    | mk hd => exact ⟨_, _, _, _, rfl, hd, by rw [hq, List.append_assoc]⟩

theorem mem_stmtWalk (ss : List Stmt) {ns : List Name} {q : Place} :
    q ∈ stmtWalk ns ss ↔ ∃ before s after inner, ss = before ++ s :: after ∧
      s.Does inner q.mark ∧ q.bound = ns ++ before.flatMap Stmt.names ++ inner := by
  cases ss with
  | nil =>
    refine ⟨fun hq => absurd hq List.not_mem_nil, ?_⟩
    rintro ⟨before, s, after, inner, hss, -⟩
    exact absurd hss.symm (List.append_ne_nil_of_right_ne_nil _ (List.cons_ne_nil _ _))
  | cons s rest =>
    rw [stmtWalk, List.mem_append, s.mem_walk, mem_stmtWalk rest]
    constructor
    · rintro (⟨inner, hd, hq⟩ | ⟨before, t, after, inner, rfl, hd, hq⟩)
      · exact ⟨[], s, rest, inner, rfl, hd, by simpa using hq⟩
      · exact ⟨s :: before, t, after, inner, rfl, hd, by simpa using hq⟩
    · rintro ⟨before, t, after, inner, hss, hd, hq⟩
      cases before with
      | nil =>
        cases hss
        exact .inl ⟨inner, hd, by simpa using hq⟩
      | cons u before =>
        cases hss
        exact .inr ⟨before, t, after, inner, rfl, hd, by simpa using hq⟩

end

theorem Function.mem_walk {f : Function} {q : Place} : q ∈ f.walk ↔ f.Does q.bound q.mark := by
  unfold Function.walk Function.Does
  cases f.body with
  | none => simp
  | some b =>
    rw [Option.elim_some, b.mem_walk]
    constructor
    · rintro ⟨inner, hd, hq⟩
      exact ⟨b, inner, rfl, hd, hq⟩
    · rintro ⟨_, inner, hb, hd, hq⟩
      cases hb
      exact ⟨inner, hd, hq⟩

/-! ## 3. Scopes -/

/-- A scope binds the names `ns` and no others. -/
def Scope.Binds (σ : Scope) (ns : List Name) : Prop := ∀ n, σ.binds n = true ↔ n ∈ ns

theorem Scope.binds_empty : Scope.empty.Binds [] := by
  intro n
  simp [binds, find?, empty, slotNamed?]

theorem Scope.Binds.enter {σ : Scope} {ns : List Name} (hs : σ.Binds ns) : σ.enter.Binds ns := by
  intro n
  rw [← hs n, binds, binds, find?_enter]

theorem Scope.Binds.bind {σ : Scope} {ns : List Name} (hs : σ.Binds ns) (s : Slot) :
    (σ.bind s).Binds (ns ++ [s.name]) := by
  intro n
  rw [List.mem_append, List.mem_singleton, ← hs n, binds, binds, find?_bind]
  by_cases hn : n = s.name <;> simp [hn]

theorem Scope.Binds.foldl_bind {σ : Scope} {ns : List Name} (hs : σ.Binds ns) (slots : List Slot) :
    (slots.foldl Scope.bind σ).Binds (ns ++ slots.map (·.name)) := by
  induction slots generalizing σ ns with
  | nil => simpa using hs
  | cons s rest ih => simpa using ih (hs.bind s)

theorem Scope.Binds.scopeAfter {σ : Scope} {ns : List Name} (hs : σ.Binds ns) (s : Stmt) :
    (s.scopeAfter σ).Binds (ns ++ s.names) := by
  cases s with
  | bind k n v sp => exact hs.bind (bindingSlot k n sp)
  | _ => simpa [Stmt.scopeAfter, Stmt.names] using hs

theorem Function.paramScope_binds (f : Function) : f.paramScope.Binds f.params := by
  have hnames : f.paramSlots.map (·.name) = f.params := by
    simp [paramSlots, params, Function.comp_def]
  have hslots := Scope.binds_empty.foldl_bind f.paramSlots
  rwa [List.nil_append, hnames] at hslots

theorem Scope.Binds.congr {σ : Scope} {ns ms : List Name} (hs : σ.Binds ns)
    (h : ∀ n, n ∈ ns ↔ n ∈ ms) : σ.Binds ms :=
  fun n => (hs n).trans (h n)

/-- A point of a pass is at place `q` of a function that was given the parameters `extra` as
well. -/
def Point.At (extra : List Name) (p : Point) (q : Place) : Prop :=
  p.mark = q.mark ∧ p.scope.Binds (extra ++ q.bound)

section Points

variable {σ : Scope} {extra ns : List Name}

theorem marks_at (hs : σ.Binds (extra ++ ns)) (ms : List Mark) :
    List.Forall₂ (Point.At extra) (ms.map (⟨σ, ·⟩)) (ms.map (⟨ns, ·⟩)) := by
  rw [List.forall₂_map_left_iff, List.forall₂_map_right_iff, List.forall₂_same]
  exact fun m _ => ⟨rfl, hs⟩

mutual

theorem Stmt.points_at {σ : Scope} {ns : List Name} (s : Stmt) (hs : σ.Binds (extra ++ ns)) :
    List.Forall₂ (Point.At extra) (s.points σ) (s.walk ns) := by
  cases s with
  | bind k n v sp =>
    exact List.rel_append (marks_at hs v.marks) (.cons ⟨rfl, hs⟩ .nil)
  | assign n v sp => exact .cons ⟨rfl, hs⟩ (marks_at hs v.marks)
  | expr v sp => exact marks_at hs v.marks
  | ret v sp =>
    cases v with
    | none => exact .nil
    | some v => exact marks_at hs v.marks
  | ifThen c b sp => exact List.rel_append (marks_at hs c.marks) (b.points_at hs)
  | ifThenElse c b o sp =>
    exact List.rel_append (List.rel_append (marks_at hs c.marks) (b.points_at hs))
      (o.points_at hs)
  | loop c b sp => exact List.rel_append (marks_at hs c.marks) (b.points_at hs)
  | block b sp => exact b.points_at hs

theorem Block.points_at {σ : Scope} {ns : List Name} (b : Block) (hs : σ.Binds (extra ++ ns)) :
    List.Forall₂ (Point.At extra) (b.points σ) (b.walk ns) := by
  obtain ⟨ss, sp⟩ := b
  exact stmtPoints_at ss hs.enter

theorem stmtPoints_at {σ : Scope} {ns : List Name} (ss : List Stmt)
    (hs : σ.Binds (extra ++ ns)) :
    List.Forall₂ (Point.At extra) (stmtPoints σ ss) (stmtWalk ns ss) := by
  cases ss with
  | nil => exact .nil
  | cons s rest =>
    -- What a statement binds comes after all that was bound for it.
    have hafter := hs.scopeAfter s
    rw [List.append_assoc] at hafter
    exact List.rel_append (s.points_at hs) (stmtPoints_at rest hafter)

end

end Points

/-- The function with more captured parameters. -/
def Function.withCaptured (f : Function) (extra : List Name) : Function :=
  { f with syntheticParams := f.syntheticParams ++ extra }

/-- The points of a body are the places of the walk through it, in order. -/
theorem Function.bodyPoints_at (f : Function) (extra : List Name) :
    List.Forall₂ (Point.At extra) (f.withCaptured extra).bodyPoints f.walk := by
  have hparams : (f.withCaptured extra).paramScope.Binds (extra ++ f.params) := by
    refine (f.withCaptured extra).paramScope_binds.congr fun n => ?_
    simp only [withCaptured, params, List.mem_append]
    tauto
  unfold bodyPoints walk
  show List.Forall₂ _ (f.body.elim [] _) _
  cases f.body with
  | none => exact .nil
  | some b => exact b.points_at hparams

-- Lists that are gone through side by side.
theorem flatMap_of_forall₂ {α β γ : Type} {R : α → β → Prop} {as : List α} {bs : List β}
    {g : α → List γ} {k : β → List γ} (h : List.Forall₂ R as bs)
    (hat : ∀ a b, b ∈ bs → R a b → g a = k b) : as.flatMap g = bs.flatMap k := by
  induction h with
  | nil => rfl
  | cons hab _ ih =>
    rw [List.flatMap_cons, List.flatMap_cons, hat _ _ List.mem_cons_self hab,
      ih fun a b hb => hat a b (List.mem_cons_of_mem _ hb)]

theorem exists_bind_of_mem_slotPoints {slots : List Slot} {σ : Scope} {p : Point}
    (hp : p ∈ slotPoints σ slots) : ∃ s, p.mark = .bind s := by
  induction slots generalizing σ with
  | nil => exact absurd hp List.not_mem_nil
  | cons s rest ih =>
    rcases List.mem_cons.1 hp with rfl | hp
    · exact ⟨s, rfl⟩
    · exact ih hp

-- A pass that does nothing where a slot is bound is one over the places of the walk.
theorem Function.flatMap_points {α : Type} (f : Function) (extra : List Name)
    {g : Point → List α} {k : Place → List α} (hbind : ∀ p s, p.mark = .bind s → g p = [])
    (hat : ∀ p q, q ∈ f.walk → p.At extra q → g p = k q) :
    (f.withCaptured extra).points.flatMap g = f.walk.flatMap k := by
  have hslots : ∀ (σ : Scope) (slots : List Slot), (slotPoints σ slots).flatMap g = [] := by
    intro σ slots
    refine List.flatMap_eq_nil_iff.2 fun p hp => ?_
    obtain ⟨s, hs⟩ := exists_bind_of_mem_slotPoints hp
    exact hbind p s hs
  rw [Function.points, List.flatMap_append, hslots, List.nil_append]
  exact flatMap_of_forall₂ (f.bodyPoints_at extra) hat

theorem Function.filterMap_points {α : Type} (f : Function) (extra : List Name)
    {g : Point → Option α} {k : Place → Option α} (hbind : ∀ p s, p.mark = .bind s → g p = none)
    (hat : ∀ p q, q ∈ f.walk → p.At extra q → g p = k q) :
    (f.withCaptured extra).points.filterMap g = f.walk.filterMap k := by
  rw [List.filterMap_eq_flatMap_toList, List.filterMap_eq_flatMap_toList]
  refine f.flatMap_points extra (fun p s hp => ?_) fun p q hq hpq => ?_
  · rw [hbind p s hp, Option.toList_none]
  · rw [hat p q hq hpq]

theorem exists_of_forall₂ {α β : Type} {R : α → β → Prop} {as : List α} {bs : List β}
    (h : List.Forall₂ R as bs) : (∀ a ∈ as, ∃ b ∈ bs, R a b) ∧ ∀ b ∈ bs, ∃ a ∈ as, R a b := by
  induction h with
  | nil => exact ⟨fun a ha => absurd ha List.not_mem_nil, fun b hb => absurd hb List.not_mem_nil⟩
  | cons hab _ ih =>
    constructor
    · intro a ha
      rcases List.mem_cons.1 ha with rfl | ha
      · exact ⟨_, List.mem_cons_self, hab⟩
      · obtain ⟨b, hb, h⟩ := ih.1 a ha
        exact ⟨b, List.mem_cons_of_mem _ hb, h⟩
    · intro b hb
      rcases List.mem_cons.1 hb with rfl | hb
      · exact ⟨_, List.mem_cons_self, hab⟩
      · obtain ⟨a, ha, h⟩ := ih.2 b hb
        exact ⟨a, List.mem_cons_of_mem _ ha, h⟩

theorem Function.exists_point {f : Function} (extra : List Name) {q : Place} (hq : q ∈ f.walk) :
    ∃ p ∈ (f.withCaptured extra).points, p.At extra q := by
  obtain ⟨p, hp, hat⟩ := (exists_of_forall₂ (f.bodyPoints_at extra)).2 q hq
  exact ⟨p, List.mem_append_right _ hp, hat⟩

-- Points other than those that bind a slot are at places of the body.
theorem Function.exists_place {f : Function} {extra : List Name} {p : Point}
    (hp : p ∈ (f.withCaptured extra).points) (hmark : ∀ s, p.mark ≠ .bind s) :
    ∃ q ∈ f.walk, p.At extra q := by
  rcases List.mem_append.1 hp with hp | hp
  · obtain ⟨s, hs⟩ := exists_bind_of_mem_slotPoints hp
    exact absurd hs (hmark s)
  · exact (exists_of_forall₂ (f.bodyPoints_at extra)).1 p hp

theorem Function.withCaptured_nil (f : Function) : f.withCaptured [] = f := by
  rw [withCaptured, List.append_nil]

end LateBind

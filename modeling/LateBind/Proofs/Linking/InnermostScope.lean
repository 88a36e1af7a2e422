import LateBind.Proofs.Lexical.Statements
import LateBind.Proofs.Linking.Closed

/-!
# The innermost binding counts

What a name stands for, and what is wrong with a use of it, told from the tree alone: a name stands
for the slot of the nearest block that has bound it so far, and for the first of that name there.
The checks of a module report just the faults that follow from this, each once, and the frames and
the table of bound calls agree with it.
-/

namespace LateBind

/-! ## 1. Faults -/

/-- Whether a slot must not be assigned to: it holds a captured binding, or a statement bound it as
a constant. -/
def Slot.Fixed (x : Slot) : Prop :=
  x.origin = .captured ∨ x.origin = .statement ∧ x.kind = .constant

instance : DecidablePred Slot.Fixed := fun x =>
  inferInstanceAs (Decidable (x.origin = .captured ∨ x.origin = .statement ∧ x.kind = .constant))

namespace Slot

/-- What is wrong with binding `x` in a block that has bound `before`. -/
def repeat? (x : Slot) (before : List Slot) : Option NameError :=
  (slotNamed? before x.name).map fun first => .rebound x.name x.span first.span

/-- The slot that binding `x` adds in a block that has bound `before`. -/
def new? (x : Slot) (before : List Slot) : Option Slot :=
  if (slotNamed? before x.name).isSome then none else some x

end Slot

/-- The name that is read at a node. -/
def Event.read? : Event → Option (Name × Span)
  | .expr (.reference n sp) => some (n, sp)
  | _ => none

/-- The names that an expression reads, from left to right. -/
def Expr.reads (e : Expr) : List (Name × Span) := (e.events everything).filterMap Event.read?

/-- What is wrong with reading `n` where blocks have bound `bs`. -/
def readFault? (bs : List (List Slot)) (n : Name) (sp : Span) : Option NameError :=
  if (nearest? bs n).isSome then none else some (.undeclared n sp)

/-- What is wrong with assigning to `n` where blocks have bound `bs`. -/
def assignFault? (bs : List (List Slot)) (n : Name) (sp : Span) : Option NameError :=
  match nearest? bs n with
  | none => some (.undeclared n sp)
  | some x => if x.Fixed then some (.constantAssigned n sp x.span) else none

namespace Standing

/-- What the block around the statement has bound before it. -/
def here (q : Standing) : List Slot := q.blocks.headD []

def readFaults (q : Standing) (e : Expr) : List NameError :=
  e.reads.filterMap fun r => readFault? q.blocks r.1 r.2

/-- What is wrong with a statement, apart from its blocks. A statement that binds a name reads its
value first; one that assigns does so last. -/
def faults (q : Standing) : List NameError :=
  match q.stmt with
  | .bind k n v sp => q.readFaults v ++ ((bindingSlot k n sp).repeat? q.here).toList
  | .assign n v sp => (assignFault? q.blocks n sp).toList ++ q.readFaults v
  | s => s.exprs.flatMap q.readFaults

/-- The slot that a statement adds to the frame. -/
def newSlot? (q : Standing) : Option Slot := q.stmt.slot?.bind (·.new? q.here)

end Standing

namespace Function

/-- What is wrong with the names of a function: repeated parameters, then its statements. -/
def faults (f : Function) : List NameError :=
  (boundInTurn [] f.paramSlots).filterMap (fun e => e.2.repeat? e.1) ++
    f.standings.flatMap Standing.faults

/-- The slots of a function: its parameters, then what its statements bind. -/
def layout (f : Function) : List Slot :=
  (boundInTurn [] f.paramSlots).filterMap (fun e => e.2.new? e.1) ++
    f.standings.filterMap Standing.newSlot?

end Function

/-! ## 2. Slots that are bound -/

theorem Stmt.constant_iff_fixed {s : Stmt} {x : Slot} (hs : s.slot? = some x) :
    x.kind = .constant ↔ x.Fixed := by
  cases s with
  | bind k n v sp =>
    cases hs
    simp [Slot.Fixed, bindingSlot]
  | _ => cases hs

theorem Function.constant_iff_fixed {f : Function} {x : Slot} (hx : x ∈ f.paramSlots) :
    x.kind = .constant ↔ x.Fixed := by
  rcases List.mem_append.1 hx with hx | hx
  all_goals
    obtain ⟨n, -, rfl⟩ := List.mem_map.1 hx
    simp [Slot.Fixed]

theorem Block.Stands.exists_stmt {b : Block} {bs : List (List Slot)} {t : Stmt}
    (h : b.Stands bs t) : ∀ c ∈ bs, ∀ x ∈ c, ∃ s : Stmt, s.slot? = some x := by
  have hslots : ∀ before : List Stmt, ∀ x ∈ before.filterMap Stmt.slot?,
      ∃ s : Stmt, s.slot? = some x := by
    intro before x hx
    obtain ⟨s, -, hs⟩ := List.mem_filterMap.1 hx
    exact ⟨s, hs⟩
  induction h with
  | here =>
    intro c hc
    cases List.mem_singleton.1 hc
    exact hslots _
  | inside _ _ ih =>
    intro c hc
    rcases List.mem_append.1 hc with hc | hc
    · exact ih c hc
    · cases List.mem_singleton.1 hc
      exact hslots _

theorem mem_boundInTurn {slots before : List Slot} {e : List Slot × Slot}
    (he : e ∈ boundInTurn before slots) :
    (∀ x ∈ e.1, x ∈ before ∨ x ∈ slots) ∧ e.2 ∈ slots := by
  induction slots generalizing before with
  | nil => exact absurd he List.not_mem_nil
  | cons y rest ih =>
    rcases List.mem_cons.1 he with rfl | he
    · exact ⟨fun x hx => .inl hx, List.mem_cons_self⟩
    · obtain ⟨hbefore, hmem⟩ := ih he
      refine ⟨fun x hx => ?_, List.mem_cons_of_mem y hmem⟩
      rcases hbefore x hx with hx | hx
      · rcases List.mem_append.1 hx with hx | hx
        · exact .inl hx
        · cases List.mem_singleton.1 hx
          exact .inr List.mem_cons_self
      · exact .inr (List.mem_cons_of_mem y hx)

theorem mem_of_nearest? {bs : List (List Slot)} {n : Name} {x : Slot}
    (h : nearest? bs n = some x) : ∃ b ∈ bs, x ∈ b := by
  obtain ⟨b, hb, hx⟩ := List.exists_of_findSome?_eq_some h
  exact ⟨b, hb, List.mem_of_find?_eq_some hx⟩

-- A slot that is in force somewhere in a function is a constant exactly if it is fixed.
theorem Function.constant_iff_fixed_of_nearest? {f : Function} {d : Doing} (hd : d ∈ f.doings)
    {n : Name} {x : Slot} (hx : nearest? d.blocks n = some x) : x.kind = .constant ↔ x.Fixed := by
  obtain ⟨b, hb, hxb⟩ := mem_of_nearest? hx
  rcases List.mem_append.1 hd with hd | hd
  · obtain ⟨e, he, rfl⟩ := List.mem_map.1 hd
    cases List.mem_singleton.1 hb
    rcases (mem_boundInTurn he).1 x hxb with hx | hx
    · exact absurd hx List.not_mem_nil
    · exact f.constant_iff_fixed hx
  · obtain ⟨q, hq, hd⟩ := List.mem_flatMap.1 hd
    obtain ⟨a, -, rfl⟩ := List.mem_map.1 hd
    obtain ⟨body, inner, -, hstands, hblocks⟩ := Function.mem_standings.1 hq
    simp only [hblocks] at hb
    rcases List.mem_append.1 hb with hb | hb
    · obtain ⟨s, hs⟩ := hstands.exists_stmt b hb x hxb
      exact s.constant_iff_fixed hs
    · cases List.mem_singleton.1 hb
      exact f.constant_iff_fixed hxb

/-! ## 3. Passes -/

theorem Scope.Shows.repeated? {σ : Scope} {bs : List (List Slot)} (h : σ.Shows bs) (n : Name) :
    σ.repeated? n = slotNamed? (bs.headD []) n := by
  cases h with
  | cons hb _ => exact hb n

namespace Doing

/-- What is wrong with what is done. -/
def fault? (d : Doing) : Option NameError :=
  match d.mark with
  | .bind x => x.repeat? (d.blocks.headD [])
  | .assign n sp => assignFault? d.blocks n sp
  | .read n sp => readFault? d.blocks n sp
  | .call .. | .method .. | .closure .. => none

/-- The slot that what is done adds to the frame. -/
def newSlot? (d : Doing) : Option Slot :=
  match d.mark with
  | .bind x => x.new? (d.blocks.headD [])
  | _ => none

end Doing

theorem Point.Shows.nameError? {p : Point} {d : Doing} (h : p.Shows d)
    (hfixed : ∀ n x, nearest? d.blocks n = some x → (x.kind = .constant ↔ x.Fixed)) :
    p.nameError? = d.fault? := by
  obtain ⟨hmark, hscope⟩ := h
  unfold Point.nameError? Doing.fault?
  rw [hmark]
  cases d.mark with
  | bind x => simp only [Slot.repeat?, hscope.repeated?]
  | assign n sp =>
    simp only [assignFault?, hscope.find?]
    cases hx : nearest? d.blocks n with
    | none => rfl
    | some x => simp only [hfixed n x hx]
  | read n sp => simp only [readFault?, Scope.binds, hscope.find?]
  | call | method | closure => rfl

theorem Point.Shows.newSlot? {p : Point} {d : Doing} (h : p.Shows d) :
    p.newSlot? = d.newSlot? := by
  obtain ⟨hmark, hscope⟩ := h
  unfold Point.newSlot? Doing.newSlot?
  rw [hmark]
  cases d.mark with
  | bind x => simp only [Slot.new?, hscope.repeated?]
  | _ => rfl

theorem filterMap_cons_toList {α β : Type} (k : α → Option β) (a : α) (as : List α) :
    (a :: as).filterMap k = (k a).toList ++ as.filterMap k := by
  rw [List.filterMap_eq_flatMap_toList, List.filterMap_eq_flatMap_toList, List.flatMap_cons]

-- An expression reads names and does nothing else that could be wrong.
theorem Expr.filterMap_marks {α : Type} (e : Expr) {k : Mark → Option α}
    {r : Name → Span → Option α} (hread : ∀ n sp, k (.read n sp) = r n sp)
    (hother : ∀ a, a.ofStatement = false → (∀ n sp, a ≠ .read n sp) → k a = none) :
    e.marks.filterMap k = e.reads.filterMap fun x => r x.1 x.2 := by
  rw [← e.marksMade_events, marksMade, List.filterMap_filterMap, Expr.reads,
    List.filterMap_filterMap]
  refine List.filterMap_congr fun v _ => ?_
  cases v with
  | expr d =>
    cases d with
    | reference n sp => exact hread n sp
    | closure c sp => exact hother (.closure c sp) rfl fun _ _ => Mark.noConfusion
    | call n args s b sp => exact hother (.call n args.length s b sp) rfl fun _ _ => Mark.noConfusion
    | method x n args s t sp =>
      exact hother (.method n args.length s t sp) rfl fun _ _ => Mark.noConfusion
    | _ => rfl
  | _ => rfl

namespace Standing

-- What a pass makes of a statement, from what it makes of expressions, bindings and assignments.
theorem filterMap_doings {α : Type} (q : Standing) {k : Doing → Option α} {r : Expr → List α}
    (hexpr : ∀ e : Expr, e.marks.filterMap (fun a => k ⟨q.blocks, a⟩) = r e) :
    q.doings.filterMap k =
      match q.stmt with
      | .bind kind n v sp => r v ++ (k ⟨q.blocks, .bind (bindingSlot kind n sp)⟩).toList
      | .assign n v sp => (k ⟨q.blocks, .assign n sp⟩).toList ++ r v
      | s => s.exprs.flatMap r := by
  have hexprs : ∀ es : List Expr,
      (es.flatMap Expr.marks).filterMap (fun a => k ⟨q.blocks, a⟩) = es.flatMap r := by
    intro es
    rw [List.filterMap_flatMap]
    exact List.flatMap_congr fun e _ => hexpr e
  rw [doings, List.filterMap_map]
  obtain ⟨bs, s⟩ := q
  show s.marks.filterMap (fun a => k ⟨bs, a⟩) = _
  cases s with
  | bind kind n v sp =>
    rw [Stmt.marks, List.filterMap_append, hexpr, filterMap_cons_toList, List.filterMap_nil,
      List.append_nil]
  | assign n v sp => rw [Stmt.marks, filterMap_cons_toList, hexpr]
  | _ => exact hexprs _

theorem filterMap_fault? (q : Standing) : q.doings.filterMap Doing.fault? = q.faults := by
  refine q.filterMap_doings fun e => e.filterMap_marks (fun n sp => rfl) fun a ha hread => ?_
  cases a with
  | read n sp => exact absurd rfl (hread n sp)
  | bind | assign => cases ha
  | call | method | closure => rfl

theorem filterMap_newSlot? (q : Standing) :
    q.doings.filterMap Doing.newSlot? = q.newSlot?.toList := by
  have hexpr : ∀ e : Expr, e.marks.filterMap (fun a => Doing.newSlot? ⟨q.blocks, a⟩) = [] := by
    intro e
    rw [e.filterMap_marks (r := fun _ _ => none) (fun n sp => rfl) fun a ha _ => ?_,
      List.filterMap_eq_nil_iff]
    · exact fun _ _ => rfl
    · cases a with
      | bind => cases ha
      | _ => rfl
  rw [q.filterMap_doings hexpr]
  obtain ⟨bs, s⟩ := q
  cases s with
  | bind | assign => rfl
  | _ => exact List.flatMap_eq_nil_iff.2 fun _ _ => rfl

end Standing

namespace Function

/-- A pass that makes of what a statement does `k`. -/
theorem filterMap_doings {α : Type} (f : Function) {g : Doing → Option α}
    {k : Standing → List α} (h : ∀ q, q.doings.filterMap g = k q) :
    f.doings.filterMap g =
      (boundInTurn [] f.paramSlots).filterMap (fun e => g ⟨[e.1], .bind e.2⟩) ++
        f.standings.flatMap k := by
  rw [doings, List.filterMap_append, List.filterMap_map, List.filterMap_flatMap]
  simp only [h]
  rfl

theorem nameErrors_eq (f : Function) : f.points.filterMap (·.nameError?) = f.faults := by
  rw [f.filterMap_points_eq (k := Doing.fault?) fun p d hd hp =>
    hp.nameError? fun n x hx => constant_iff_fixed_of_nearest? hd hx]
  exact f.filterMap_doings Standing.filterMap_fault?

theorem slots_eq (f : Function) : f.slots = f.layout := by
  rw [slots, f.filterMap_points_eq (k := Doing.newSlot?) fun p d _ hp => hp.newSlot?,
    f.filterMap_doings Standing.filterMap_newSlot?, layout,
    List.filterMap_eq_flatMap_toList (f := Standing.newSlot?)]
  rfl

end Function

/-! ## 4. Bound calls -/

/-- The site of a plain call at a node. -/
def Event.callSite? : Event → Option CallSiteId
  | .expr (.call _ _ site _ _) => some site
  | _ => none

/-- The site of a plain call at a mark. -/
def Mark.callSite? : Mark → Option CallSiteId
  | .call _ _ site _ _ => some site
  | _ => none

theorem Module.filterMap_callSite?_allEvents (m : Module) :
    m.allEvents.filterMap Event.callSite? = m.points.filterMap (·.mark.callSite?) := by
  have hevents : m.allEvents.filterMap Event.callSite? =
      (marksMade m.allEvents).filterMap Mark.callSite? := by
    rw [marksMade, List.filterMap_filterMap]
    refine List.filterMap_congr fun v _ => ?_
    cases v with
    | expr e => cases e <;> rfl
    | _ => rfl
  have hpoints : (marksAlong m.points).filterMap Mark.callSite? =
      m.points.filterMap (·.mark.callSite?) := by
    rw [marksAlong, List.filterMap_filter, List.filterMap_map]
    refine List.filterMap_congr fun p _ => ?_
    cases h : p.mark <;> simp [h, Mark.ofStatement, Mark.callSite?]
  rw [hevents, m.marksMade_allEvents, hpoints]

theorem Point.callSite?_of_callBinding? {p : Point} {s : CallSiteId} {x : Slot}
    (h : p.callBinding? = some (s, x)) : p.mark.callSite? = some s := by
  unfold callBinding? at h
  split at h
  next hmark =>
    obtain ⟨y, -, he⟩ := Option.map_eq_some_iff.1 h
    cases he
    rw [hmark]
    rfl
  next => cases h

-- The only plain call at a site has there what its name stands for.
theorem Function.Holds.bindingAt? {m : Module} {id : FunctionId} {f : Function}
    {bs : List (List Slot)} {n : Name} {args : List Expr} {s : CallSiteId} {r : Bool} {sp : Span}
    (hf : m.function? id = some f) (h : f.Holds bs (.call n args s r sp))
    (hsite : (m.allEvents.filterMap Event.callSite?).count s = 1) :
    m.locals.bindingAt? s = nearest? bs n := by
  obtain ⟨p, hp, hmark, -, hscope⟩ := h.module_point hf rfl
  rw [m.filterMap_callSite?_allEvents] at hsite
  have hget : m.locals.bindingAt? s = p.callBinding?.map (·.2) :=
    SiteTable.get?_filterMap (fun _ _ _ => Point.callSite?_of_callBinding?) hp (Nat.le_of_eq hsite)
      (by rw [hmark]; rfl)
  have hbinding : p.callBinding? = (p.scope.find? n).map (s, ·) := by rw [Point.callBinding?, hmark]
  rw [hget, hbinding, ← hscope n]
  cases p.scope.find? n <;> rfl

/-- **The innermost binding counts.** In any module, published or not,

* the statements of a function, each with what the blocks open there have bound, are those that
  stand in it, in the order in which its nodes are come upon;
* the only plain call at a site has there the slot of the nearest block that has bound its name, if
  one has;
* a frame has a slot for each parameter and for each binding whose block has not bound the name
  before;
* the reports are those of the faults, each once and in order: a name read or assigned to that no
  block around has bound, an assignment to what is fixed, a name that its block has bound before.
-/
theorem innermost_counts (m : Module) :
    (∀ id f, m.function? id = some f →
      f.standings.map (·.stmt) = (f.events everything id).filterMap Event.stmt? ∧
      ∀ q, q ∈ f.standings ↔ f.Stands q.blocks q.stmt) ∧
    (∀ id f bs n args s r sp, m.function? id = some f → f.Holds bs (.call n args s r sp) →
      (m.allEvents.filterMap Event.callSite?).count s = 1 →
      m.locals.bindingAt? s = nearest? bs n) ∧
    m.locals.frames = m.functions.map Function.layout ∧
    ∀ names : Interner,
      ((Queue.ofConfig .unlimited).extend (m.nameReports names)).contents =
        (m.functions.flatMap Function.faults).map (·.report names) := by
  refine ⟨fun id f _ => ⟨f.map_stmt_standings id, fun q => Function.mem_standings⟩,
    fun id f bs n args s r sp hf h hsite => h.bindingAt? hf hsite, ?_, fun names => ?_⟩
  · exact List.map_congr_left fun f _ => f.slots_eq
  · rw [Queue.contents_extend_unlimited, Module.nameReports, Module.nameErrors, Module.points,
      List.filterMap_flatMap]
    exact congrArg _ (List.flatMap_congr fun f _ => f.nameErrors_eq)

namespace OwnInitialiser

/-- The call of a name in the value that the same name is bound to. -/
def call : Expr := .call ⟨6⟩ [] ⟨0⟩ false ⟨13, 14⟩

/-- A name is bound as a constant and again as a variable, then as a variable in a block, and
assigned to after the block. -/
def body : Block :=
  .mk [.bind .constant ⟨6⟩ (.newObject .dummy) ⟨10, 11⟩,
    .bind .assignable ⟨6⟩ (.newObject .dummy) ⟨11, 12⟩,
    .block (.mk [.bind .assignable ⟨6⟩ call ⟨12, 14⟩] .dummy) .dummy,
    .assign ⟨6⟩ (.newObject .dummy) ⟨15, 16⟩] .dummy

def main : Function where
  name := ⟨2⟩
  visibility := .anyUnit
  kind := .topLevel
  span := ⟨0, 1⟩
  userParams := [⟨5⟩]
  body := some body

def unit : Module := ⟨⟨1⟩, [], [main], 1⟩

end OwnInitialiser

open OwnInitialiser in
-- The call is of the first constant, and so is the assignment.
theorem innermost_counts_initialiser :
    unit.locals.bindingAt? ⟨0⟩ = some (bindingSlot .constant ⟨6⟩ ⟨10, 11⟩) ∧
      unit.locals.frames = [[⟨⟨5⟩, .assignable, .parameter, ⟨0, 1⟩⟩,
        bindingSlot .constant ⟨6⟩ ⟨10, 11⟩, bindingSlot .assignable ⟨6⟩ ⟨12, 14⟩]] ∧
      ((Queue.ofConfig .unlimited).extend (unit.nameReports .initial)).contents =
        [NameError.rebound ⟨6⟩ ⟨11, 12⟩ ⟨10, 11⟩,
          .constantAssigned ⟨6⟩ ⟨15, 16⟩ ⟨10, 11⟩].map (·.report .initial) := by
  have hstands : main.Stands [[], [bindingSlot .constant ⟨6⟩ ⟨10, 11⟩,
      bindingSlot .assignable ⟨6⟩ ⟨11, 12⟩], main.paramSlots]
      (.bind .assignable ⟨6⟩ call ⟨12, 14⟩) :=
    ⟨_, [[], [_, _]], rfl, @Block.Stands.inside [_, _] _ [_] _ _ [[]] _ List.mem_cons_self
      (@Block.Stands.here [] _ [] _), rfl⟩
  have hholds : main.Holds _ call := ⟨_, _, hstands, List.mem_cons_self, .self⟩
  obtain ⟨-, hcalls, hframes, hreports⟩ := innermost_counts unit
  exact ⟨hcalls ⟨0⟩ main _ ⟨6⟩ [] ⟨0⟩ false ⟨13, 14⟩ rfl hholds rfl, hframes, hreports .initial⟩

end LateBind

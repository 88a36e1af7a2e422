import LateBind.Proofs.Lexical.Traversal
import LateBind.Proofs.Unit.Depth
import Mathlib.Data.List.Induction

/-!
# Source order

A node of a module has an address: the number of its function, then at each level how many parts of
the node above stand before it. Addresses compare as words do in a dictionary, an address before
its extensions, and that order is the order of the source. The nodes come in it, each once. A
reader that stops at some nodes gets the same sequence without what is below them.
-/

namespace LateBind

/-! ## 1. Parts and addresses -/

/-- The nodes right below a node, in the order of the source. -/
def Event.parts : Event → List Event
  | .function _ f => f.body.toList.map .block
  | .block b => b.stmts.map .stmt
  | .stmt (.bind _ _ v _) | .stmt (.assign _ v _) | .stmt (.expr v _) => [.expr v]
  | .stmt (.ret v _) => v.toList.map .expr
  | .stmt (.ifThen c b _) | .stmt (.loop c b _) => [.expr c, .block b]
  | .stmt (.ifThenElse c b o _) => [.expr c, .block b, .block o]
  | .stmt (.block b _) => [.block b]
  | .expr (.literal v s) => [.literal v s]
  | .expr (.reference n s) => [.reference n s]
  | .expr (.closure f s) => [.closure f s]
  | .expr (.call n args site r s) => [.call n args site r s]
  | .expr (.method x n args site t s) => [.method x n args site t s]
  | .expr (.binary _ l r _) => [.expr l, .expr r]
  | .expr (.unary _ x _) => [.expr x]
  | .expr (.functionRef ..) | .expr (.newObject _) => []
  | .call _ args _ _ _ => args.map .expr
  | .method x _ args _ _ _ => (x :: args).map .expr
  | .reference .. | .closure .. | .literal .. => []

/-- The node at an address that starts from `e`. -/
def Event.within? (e : Event) : List Nat → Option Event
  | [] => some e
  | i :: p => e.parts[i]?.bind (·.within? p)

/-- The node at an address among `es` and what is below them. -/
def nodeAt? (es : List Event) : List Nat → Option Event
  | [] => none
  | i :: p => es[i]?.bind (·.within? p)

/-- Whether a node at which the reader stops is strictly above an address. -/
def prunedAt (es : List Event) (stop : Hook → Bool) (p : List Nat) : Bool :=
  (List.range p.length).any fun n => (nodeAt? es (p.take n)).any (stop ·.hook)

namespace Module

/-- The functions of a module as nodes. -/
def tops (m : Module) : List Event := (numbered m.functions).map fun (id, f) => .function id f

/-- The node at an address of the module. -/
def node? (m : Module) (p : List Nat) : Option Event := nodeAt? m.tops p

/-- Whether address `p` is strictly below a node at which the reader stops. -/
def pruned (m : Module) (stop : Hook → Bool) (p : List Nat) : Bool := prunedAt m.tops stop p

end Module

theorem Event.within?_eq (e : Event) {p : List Nat} (hp : p ≠ []) :
    e.within? p = nodeAt? e.parts p := by
  cases p with
  | nil => exact absurd rfl hp
  | cons i p => rfl

theorem nodeAt?_append_left {es : List Event} {e : Event} {i : Nat} (hi : i < es.length)
    (p : List Nat) : nodeAt? (es ++ [e]) (i :: p) = nodeAt? es (i :: p) := by
  rw [nodeAt?, nodeAt?, List.getElem?_append_left hi]

theorem nodeAt?_append_length (es : List Event) (e : Event) (p : List Nat) :
    nodeAt? (es ++ [e]) (es.length :: p) = e.within? p := by
  rw [nodeAt?, List.getElem?_concat_length]
  rfl

-- There is no node at the empty address, so what is above an address starts with its first number.
theorem prunedAt_cons (es : List Event) (stop : Hook → Bool) (i : Nat) (p : List Nat) :
    prunedAt es stop (i :: p) =
      (List.range p.length).any fun n => (nodeAt? es (i :: p.take n)).any (stop ·.hook) := by
  rw [prunedAt, List.length_cons, List.range_succ_eq_map, List.any_cons, List.any_map]
  rfl

theorem prunedAt_append_left {es : List Event} {e : Event} {i : Nat} (hi : i < es.length)
    (stop : Hook → Bool) (p : List Nat) :
    prunedAt (es ++ [e]) stop (i :: p) = prunedAt es stop (i :: p) := by
  simp only [prunedAt_cons, nodeAt?_append_left hi]

-- Above an address that starts from `e` are `e` and, below it, what is above the rest.
theorem prunedAt_append_length (es : List Event) (e : Event) (stop : Hook → Bool) {p : List Nat}
    (hp : p ≠ []) :
    prunedAt (es ++ [e]) stop (es.length :: p) = (stop e.hook || prunedAt e.parts stop p) := by
  cases p with
  | nil => exact absurd rfl hp
  | cons j q =>
    rw [prunedAt_cons, prunedAt_cons, List.length_cons, List.range_succ_eq_map, List.any_cons,
      List.any_map]
    simp only [nodeAt?_append_length]
    rfl

/-! ## 2. The walk, one level at a time -/

/-- The nodes from `e` on. -/
def Event.walk (stop : Hook → Bool) : Event → List Event
  | .function id f => f.events stop id
  | .block b => b.events stop
  | .stmt s => s.events stop
  | .expr e => e.events stop
  | .call n args site r s => (Event.call n args site r s).above stop (exprEvents stop args)
  | .method x n args site t s =>
      (Event.method x n args site t s).above stop (x.events stop ++ exprEvents stop args)
  | .reference n s => [.reference n s]
  | .closure f s => [.closure f s]
  | .literal v s => [.literal v s]

theorem exprEvents_eq (stop : Hook → Bool) (es : List Expr) :
    exprEvents stop es = (es.map Event.expr).flatMap (·.walk stop) := by
  induction es with
  | nil => rfl
  | cons e rest ih => rw [exprEvents, ih, List.map_cons, List.flatMap_cons, Event.walk]

theorem stmtEvents_eq (stop : Hook → Bool) (ss : List Stmt) :
    stmtEvents stop ss = (ss.map Event.stmt).flatMap (·.walk stop) := by
  induction ss with
  | nil => rfl
  | cons s rest ih => rw [stmtEvents, ih, List.map_cons, List.flatMap_cons, Event.walk]

theorem Event.above_nil (e : Event) (stop : Hook → Bool) : e.above stop [] = [e] := by
  rw [above, ite_self]

/-- A node, then what is below its parts, part by part. -/
theorem Event.walk_eq (e : Event) (stop : Hook → Bool) :
    e.walk stop = e.above stop (e.parts.flatMap (·.walk stop)) := by
  cases e with
  | function id f => cases hb : f.body <;> simp [walk, parts, Function.events, hb]
  | block b =>
    obtain ⟨ss, sp⟩ := b
    rw [walk, Block.events, stmtEvents_eq]
    rfl
  | stmt s =>
    cases s with
    | ret v sp => cases v <;> simp [walk, parts, Stmt.events]
    | _ => simp [walk, parts, Stmt.events]
  | expr e => cases e <;> simp [walk, parts, Expr.events, above_nil]
  | call n args site r s => rw [walk, exprEvents_eq, parts]
  | method x n args site t s =>
    rw [walk, exprEvents_eq, parts, List.map_cons, List.flatMap_cons, walk]
  | reference | closure | literal => exact (above_nil _ stop).symm

/-- The walk of a part is shorter, so an induction along parts ends. -/
theorem Event.length_walk_lt {e x : Event} (hx : x ∈ e.parts) :
    (x.walk everything).length < (e.walk everything).length := by
  have hle := (List.infix_flatMap_of_mem hx (·.walk everything)).length_le
  rw [e.walk_eq, above_everything, List.length_cons]
  omega

/-! ## 3. The nodes in the order of their addresses -/

/-- `ps` are the addresses among `es` in order. What a reader gets from `es` is at those of them
that are not pruned. -/
structure Charts (ps : List (List Nat)) (es : List Event) : Prop where
  ordered : ps.Pairwise (· < ·)
  mem_iff : ∀ p, p ∈ ps ↔ (nodeAt? es p).isSome
  walked : ∀ stop, (es.flatMap (·.walk stop)).map some =
    (ps.filter (!prunedAt es stop ·)).map (nodeAt? es)

namespace Charts

variable {ps qs : List (List Nat)} {es : List Event} {e : Event}

theorem nil : Charts [] [] where
  ordered := .nil
  mem_iff p := by cases p <;> simp [nodeAt?]
  walked _ := rfl

theorem ne_nil (h : Charts ps es) {p : List Nat} (hp : p ∈ ps) : p ≠ [] := by
  rintro rfl
  exact absurd ((h.mem_iff []).1 hp) Bool.false_ne_true

theorem exists_cons (h : Charts ps es) {p : List Nat} (hp : p ∈ ps) :
    ∃ i q, p = i :: q ∧ i < es.length := by
  have hsome := (h.mem_iff p).1 hp
  obtain ⟨i, q, rfl⟩ := List.exists_cons_of_ne_nil (h.ne_nil hp)
  refine ⟨i, q, rfl, ?_⟩
  by_contra hi
  rw [nodeAt?, List.getElem?_eq_none (by omega)] at hsome
  exact absurd hsome Bool.false_ne_true

/-- The addresses from `e` on are that of `e` and those of its parts. -/
theorem mem_within (h : Charts qs e.parts) (q : List Nat) :
    q ∈ [] :: qs ↔ (e.within? q).isSome := by
  cases q with
  | nil => exact iff_of_true List.mem_cons_self rfl
  | cons j r =>
    rw [e.within?_eq (List.cons_ne_nil j r), ← h.mem_iff, List.mem_cons]
    exact or_iff_right (List.cons_ne_nil j r)

/-- What a reader gets from `e` on, if `e` comes after `es`. -/
theorem walked_within (h : Charts qs e.parts) (es : List Event) (stop : Hook → Bool) :
    (e.walk stop).map some = (([] :: qs).filter fun q =>
      !prunedAt (es ++ [e]) stop (es.length :: q)).map e.within? := by
  have htop : (!prunedAt (es ++ [e]) stop [es.length]) = true := by
    rw [prunedAt_cons]
    rfl
  have hbelow : ∀ q ∈ qs, prunedAt (es ++ [e]) stop (es.length :: q) =
      (stop e.hook || prunedAt e.parts stop q) := fun q hq =>
    prunedAt_append_length es e stop (h.ne_nil hq)
  rw [e.walk_eq, Event.above, List.map_cons, List.filter_cons, if_pos htop, List.map_cons]
  refine congrArg (some e :: ·) ?_
  cases hstop : stop e.hook with
  | true =>
    rw [List.filter_eq_nil_iff.2 fun q hq => by rw [hbelow q hq, hstop]; exact Bool.false_ne_true]
    rfl
  | false =>
    have hsame : ∀ q ∈ qs.filter (!prunedAt e.parts stop ·), nodeAt? e.parts q = e.within? q :=
      fun q hq => (e.within?_eq (h.ne_nil (List.mem_of_mem_filter hq))).symm
    rw [List.filter_congr fun q hq => by rw [hbelow q hq, hstop, Bool.false_or],
      ← List.map_congr_left hsame]
    exact h.walked stop

-- The node that is added comes last, so the numbers of those before it stay what they are.
section Snoc

variable (h : Charts ps es) (h' : Charts qs e.parts)

include h h'

theorem ordered_snoc : (ps ++ ([] :: qs).map (es.length :: ·)).Pairwise (· < ·) := by
  refine List.pairwise_append.2 ⟨h.ordered, List.pairwise_map.2 ?_, ?_⟩
  · refine List.pairwise_cons.2 ⟨fun q hq => ?_, h'.ordered.imp fun hlt => ?_⟩
    · obtain ⟨j, r, rfl, -⟩ := h'.exists_cons hq
      exact List.cons_lt_cons_iff.2 (.inr ⟨rfl, List.nil_lt_cons j r⟩)
    · exact List.cons_lt_cons_iff.2 (.inr ⟨rfl, hlt⟩)
  · intro p hp q hq
    obtain ⟨i, r, rfl, hi⟩ := h.exists_cons hp
    obtain ⟨r', -, rfl⟩ := List.mem_map.1 hq
    exact List.cons_lt_cons_iff.2 (.inl hi)

theorem mem_snoc (p : List Nat) :
    p ∈ ps ++ ([] :: qs).map (es.length :: ·) ↔ (nodeAt? (es ++ [e]) p).isSome := by
  rw [List.mem_append, List.mem_map]
  constructor
  · rintro (hp | ⟨q, hq, rfl⟩)
    · obtain ⟨i, q, rfl, hi⟩ := h.exists_cons hp
      rw [nodeAt?_append_left hi]
      exact (h.mem_iff _).1 hp
    · rw [nodeAt?_append_length]
      exact (h'.mem_within q).1 hq
  · intro hp
    cases p with
    | nil => exact absurd hp Bool.false_ne_true
    | cons i q =>
      rcases Nat.lt_trichotomy i es.length with hi | rfl | hi
      · rw [nodeAt?_append_left hi] at hp
        exact .inl ((h.mem_iff _).2 hp)
      · rw [nodeAt?_append_length] at hp
        exact .inr ⟨q, (h'.mem_within q).2 hp, rfl⟩
      · have hlen : (es ++ [e]).length ≤ i := by rw [List.length_append]; exact hi
        rw [nodeAt?, List.getElem?_eq_none hlen] at hp
        exact absurd hp Bool.false_ne_true

theorem walked_snoc (stop : Hook → Bool) : ((es ++ [e]).flatMap (·.walk stop)).map some =
    ((ps ++ ([] :: qs).map (es.length :: ·)).filter (!prunedAt (es ++ [e]) stop ·)).map
      (nodeAt? (es ++ [e])) := by
  have hfilter : ps.filter (!prunedAt (es ++ [e]) stop ·) = ps.filter (!prunedAt es stop ·) :=
    List.filter_congr fun p hp => by
      obtain ⟨i, q, rfl, hi⟩ := h.exists_cons hp
      rw [prunedAt_append_left hi]
  have hsame : ∀ p ∈ ps.filter (!prunedAt es stop ·), nodeAt? (es ++ [e]) p = nodeAt? es p := by
    intro p hp
    obtain ⟨i, q, rfl, hi⟩ := h.exists_cons (List.mem_of_mem_filter hp)
    exact nodeAt?_append_left hi q
  have hlast : nodeAt? (es ++ [e]) ∘ (es.length :: ·) = e.within? :=
    funext (nodeAt?_append_length es e)
  rw [List.flatMap_append, List.map_append, h.walked stop, List.filter_append, List.map_append,
    hfilter, List.map_congr_left hsame, List.filter_map, List.map_map, hlast,
    List.flatMap_singleton, h'.walked_within es stop]
  rfl

theorem snoc : Charts (ps ++ ([] :: qs).map (es.length :: ·)) (es ++ [e]) :=
  ⟨ordered_snoc h h', mem_snoc h h', walked_snoc h h'⟩

end Snoc

end Charts

theorem exists_charts_of_parts {es : List Event} (h : ∀ e ∈ es, ∃ qs, Charts qs e.parts) :
    ∃ ps, Charts ps es := by
  induction es using List.reverseRec with
  | nil => exact ⟨[], .nil⟩
  | append_singleton es e ih =>
    obtain ⟨ps, hps⟩ := ih fun x hx => h x (List.mem_append_left _ hx)
    obtain ⟨qs, hqs⟩ := h e List.mem_concat_self
    exact ⟨_, hps.snoc hqs⟩

theorem Event.exists_charts (e : Event) : ∃ qs, Charts qs e.parts :=
  exists_charts_of_parts fun x hx =>
    have := length_walk_lt hx
    x.exists_charts
termination_by (e.walk everything).length

/-! ## 4. Functions and closures -/

theorem Event.function_not_mem_parts (e : Event) (id : FunctionId) (f : Function) :
    .function id f ∉ e.parts := by
  cases e with
  | stmt s => cases s <;> simp [parts]
  | expr e => cases e <;> simp [parts]
  | _ => simp [parts]

/-- Below a node there are no functions, those that closures are made from included. -/
theorem Event.within?_ne_function (e : Event) {p : List Nat} (hp : p ≠ []) (id : FunctionId)
    (f : Function) : e.within? p ≠ some (.function id f) := by
  cases p with
  | nil => exact absurd rfl hp
  | cons i q =>
    intro he
    obtain ⟨x, hx, hq⟩ := Option.bind_eq_some_iff.1 he
    by_cases hnil : q = []
    · subst hnil
      obtain rfl : x = .function id f := Option.some.inj hq
      exact e.function_not_mem_parts id f (List.mem_of_getElem? hx)
    · exact x.within?_ne_function hnil id f hq
termination_by p.length

theorem Event.within?_append (e : Event) (p q : List Nat) :
    e.within? (p ++ q) = (e.within? p).bind (·.within? q) := by
  induction p generalizing e with
  | nil => rfl
  | cons i p ih =>
    rw [List.cons_append, within?, within?, Option.bind_assoc]
    exact congrArg _ (funext ih)

/-- A node without parts has nothing below it. -/
theorem Event.eq_nil_of_parts_eq_nil {e : Event} (he : e.parts = []) {p : List Nat}
    (hp : (e.within? p).isSome) : p = [] := by
  cases p with
  | nil => rfl
  | cons i p =>
    rw [within?, he] at hp
    exact absurd hp Bool.false_ne_true

/-! ## 5. Modules -/

namespace Module

theorem mem_flatMap_functions {α : Type} {m : Module} {k : FunctionId × Function → List α}
    {a : α} : a ∈ (numbered m.functions).flatMap k ↔
      ∃ id f, m.function? id = some f ∧ a ∈ k (id, f) := by
  rw [List.mem_flatMap]
  constructor
  · rintro ⟨⟨id, f⟩, hf, ha⟩
    exact ⟨id, f, mem_numbered.1 hf, ha⟩
  · rintro ⟨id, f, hf, ha⟩
    exact ⟨(id, f), mem_numbered.2 hf, ha⟩

-- The whole sequence of nodes comes upon the expressions of a module and upon no others.
theorem mem_allEvents_iff {m : Module} {d : Expr} :
    .expr d ∈ m.allEvents ↔ ∃ id f bs, m.function? id = some f ∧ f.Holds bs d := by
  rw [allEvents, events, mem_flatMap_functions]
  refine exists₂_congr fun id f => ?_
  rw [Function.mem_events_iff, exists_and_left]

theorem mem_allEvents {m : Module} {id : FunctionId} {f : Function} {bs : List (List Slot)}
    {d : Expr} (hf : m.function? id = some f) (hd : f.Holds bs d) : .expr d ∈ m.allEvents :=
  mem_allEvents_iff.2 ⟨id, f, bs, hf, hd⟩

theorem events_eq (m : Module) (stop : Hook → Bool) :
    m.events stop = m.tops.flatMap (·.walk stop) := by
  rw [events, tops, List.flatMap_map]
  rfl

theorem exists_charts (m : Module) : ∃ ps, Charts ps m.tops :=
  exists_charts_of_parts fun e _ => e.exists_charts

theorem pruned_everything (m : Module) (p : List Nat) : m.pruned everything p = false := by
  refine List.any_eq_false.2 fun n _ => ?_
  cases nodeAt? m.tops (p.take n) with
  | none => exact Bool.false_ne_true
  | some e => exact Bool.false_ne_true

theorem map_some_allEvents {m : Module} {ps : List (List Nat)} (h : Charts ps m.tops) :
    m.allEvents.map some = ps.map m.node? := by
  have hall : ps.filter (!m.pruned everything ·) = ps :=
    List.filter_eq_self.2 fun p _ => by rw [pruned_everything]; rfl
  rw [allEvents, events_eq, h.walked everything]
  exact congrArg (List.map m.node?) hall

/-- The nodes of the full sequence are those that have an address. -/
theorem mem_allEvents_iff_node? {m : Module} {e : Event} :
    e ∈ m.allEvents ↔ ∃ p, m.node? p = some e := by
  obtain ⟨ps, hps⟩ := m.exists_charts
  have hsome : e ∈ m.allEvents ↔ some e ∈ m.allEvents.map some := by simp
  rw [hsome, map_some_allEvents hps, List.mem_map]
  constructor
  · rintro ⟨p, -, hp⟩
    exact ⟨p, hp⟩
  · rintro ⟨p, hp⟩
    exact ⟨p, (hps.mem_iff p).2 (Option.isSome_of_eq_some hp), hp⟩

/-- So the expressions that have an address are those that stand in a function of the module. -/
theorem exists_node?_expr_iff {m : Module} {d : Expr} :
    (∃ p, m.node? p = some (.expr d)) ↔ ∃ id f bs, m.function? id = some f ∧ f.Holds bs d := by
  rw [← mem_allEvents_iff_node?, mem_allEvents_iff]

theorem node?_cons (m : Module) (i : Nat) (p : List Nat) :
    m.node? (i :: p) = (m.functions[i]?).bind fun f => (Event.function ⟨i⟩ f).within? p := by
  rw [node?, nodeAt?, tops, numbered, List.map_map, List.getElem?_map, List.getElem?_zipIdx,
    Nat.zero_add, Option.map_map, Option.bind_map]
  rfl

theorem node?_eq_function_iff {m : Module} {p : List Nat} {id : FunctionId} {f : Function} :
    m.node? p = some (.function id f) ↔ p = [id.index] ∧ m.function? id = some f := by
  constructor
  · intro hp
    cases p with
    | nil => cases hp
    | cons i q =>
      rw [node?_cons] at hp
      obtain ⟨g, hg, hq⟩ := Option.bind_eq_some_iff.1 hp
      by_cases hnil : q = []
      · subst hnil
        cases hq
        exact ⟨rfl, hg⟩
      · exact absurd hq (Event.within?_ne_function _ hnil id f)
  · rintro ⟨rfl, hf⟩
    rw [node?_cons, show m.functions[id.index]? = some f from hf]
    rfl

theorem node?_append {m : Module} {p : List Nat} {e : Event} (hp : m.node? p = some e)
    (q : List Nat) : m.node? (p ++ q) = e.within? q := by
  cases p with
  | nil => cases hp
  | cons i p =>
    rw [node?_cons] at hp
    obtain ⟨f, hf, hp⟩ := Option.bind_eq_some_iff.1 hp
    rw [List.cons_append, node?_cons, hf, Option.bind_some, Event.within?_append, hp]
    rfl

end Module

/-- **The nodes of a module are come upon in source order, each once.** Every address that has a
node occurs once, in dictionary order, and the full sequence is the nodes there. Functions are at
the top, by their numbers, and nowhere else: there is nothing below where a closure is made, and
nothing below a function without a body. A reader that stops at some kinds of node gets what is at
the addresses that are not strictly below such a node. -/
theorem nodes_in_source_order (m : Module) :
    (∃ addresses : List (List Nat),
      addresses.Pairwise (· < ·) ∧
      (∀ p, p ∈ addresses ↔ (m.node? p).isSome) ∧
      m.allEvents.map some = addresses.map m.node? ∧
      ∀ stop, (m.events stop).map some = (addresses.filter (!m.pruned stop ·)).map m.node?) ∧
    (∀ p id f, m.node? p = some (.function id f) ↔ p = [id.index] ∧ m.function? id = some f) ∧
    (∀ p c s, m.node? p = some (.closure c s) → ∀ q, (m.node? (p ++ q)).isSome → q = []) ∧
    ∀ id f, m.function? id = some f → f.isComplete = false →
      ∀ q, (m.node? (id.index :: q)).isSome → q = [] := by
  refine ⟨?_, fun p id f => Module.node?_eq_function_iff, ?_, ?_⟩
  · obtain ⟨ps, hps⟩ := m.exists_charts
    refine ⟨ps, hps.ordered, hps.mem_iff, Module.map_some_allEvents hps, fun stop => ?_⟩
    rw [m.events_eq]
    exact hps.walked stop
  · intro p c s hp q hq
    rw [Module.node?_append hp] at hq
    exact Event.eq_nil_of_parts_eq_nil rfl hq
  · intro id f hf hbody q hq
    have hnone : f.body = none := Option.isSome_eq_false_iff.1 hbody |> Option.isNone_iff_eq_none.1
    have hparts : (Event.function id f).parts = [] := by
      rw [Event.parts, hnone]
      rfl
    have hnode : m.node? [id.index] = some (.function id f) :=
      Module.node?_eq_function_iff.2 ⟨rfl, hf⟩
    rw [← List.singleton_append, Module.node?_append hnode] at hq
    exact Event.eq_nil_of_parts_eq_nil hparts hq

end LateBind

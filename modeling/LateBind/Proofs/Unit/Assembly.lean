import LateBind.Proofs.Unit.CallSites
import Mathlib.Data.List.Flatten
import Mathlib.Data.List.Perm.Subperm

/-!
# Putting a unit together

The calls of a unit are made one after another, each with its arguments, and are put in bodies later,
on receivers that were made before or after them. In between, functions are declared and edited, sites
are taken for nothing, bodies are put in place of others or refused, and what was made is thrown away.
As long as a call is put in one body only, its site is its own, and of two calls the one made first has
the smaller site.
-/

namespace LateBind

/-! ## 1. Steps -/

/-- The calls that an edit puts in a body. -/
def Edit.calls : Edit → List NamedCall
  | .body block => block.calls
  | _ => []

theorem Function.calls_edit (f : Function) (e : Edit) :
    (f.edit e).calls = e.calls ∨ e.calls = [] ∧ (f.edit e).calls = f.calls := by
  cases e with
  | body block => exact .inl rfl
  | _ => exact .inr ⟨rfl, rfl⟩

/-- The calls that have to be there for a step. -/
def Builder.Step.calls : Builder.Step → List NamedCall
  | .call _ args _ => exprCalls args
  | .edit _ e => e.calls
  | _ => []

/-- A unit that is being put together. -/
structure Assembly where
  builder : Builder
  /-- The calls that were made, in order. -/
  made : List NamedCall
  /-- The calls in the bodies that functions got, whether or not they still have them. -/
  placed : List NamedCall
  /-- The sites that were taken, in order. -/
  taken : List CallSiteId

namespace Assembly

/-- After a step. What is put in the body of a function that was never declared is put nowhere. -/
def after (a : Assembly) (s : Builder.Step) : Assembly :=
  let b := a.builder.step s
  match s with
  | .addImport _ | .declare .. => { a with builder := b }
  | .allocate => { a with builder := b, taken := a.taken ++ [a.builder.takeSite.1] }
  | .call name args span =>
      let c := (a.builder.namedCall name args span).1
      { a with builder := b, made := a.made ++ [c], taken := a.taken ++ [c.site] }
  | .edit id e =>
      let declared := (a.builder.function? id).isSome
      { a with builder := b, placed := if declared then a.placed ++ e.calls else a.placed }

theorem builder_after (a : Assembly) (s : Builder.Step) : (a.after s).builder = a.builder.step s := by
  cases s <;> rfl

/-- The step only uses calls that were made, and what it puts in a body was put in none before. -/
structure Allows (a : Assembly) (s : Builder.Step) : Prop where
  made : s.calls ⊆ a.made
  once : (a.after s).placed.Nodup

/-- `a` is what `unit` comes to by some steps from an empty builder, each of them allowed. -/
inductive Of (unit : Name) : Assembly → Prop where
  | start : Of unit ⟨.ofName unit, [], [], []⟩
  | step {a} (s : Builder.Step) : Of unit a → a.Allows s → Of unit (a.after s)

/-! ## 2. What a step keeps -/

-- Putting one in place of another exchanges what comes of the two.
theorem perm_flatMap_set {α β : Type} {l : List α} {i : Nat} {x : α} (hx : l[i]? = some x) (y : α)
    (g : α → List β) : (g x ++ (l.set i y).flatMap g).Perm (g y ++ l.flatMap g) := by
  induction l generalizing i with
  | nil => cases hx
  | cons z rest ih =>
    cases i with
    | zero =>
      cases hx
      exact List.perm_append_comm_assoc _ _ _
    | succ i =>
      rw [List.set_cons_succ, List.flatMap_cons, List.flatMap_cons]
      refine (List.perm_append_comm_assoc _ _ _).trans ?_
      exact ((ih hx).append_left _).trans (List.perm_append_comm_assoc _ _ _)

-- A body that is put in place of another is all that an edit adds.
theorem subperm_set_edit {fs : List Function} {i : Nat} {f : Function} (hf : fs[i]? = some f)
    (e : Edit) :
    ((fs.set i (f.edit e)).flatMap Function.calls).Subperm (fs.flatMap Function.calls ++ e.calls) := by
  have hset := perm_flatMap_set hf (f.edit e) Function.calls
  rcases f.calls_edit e with he | ⟨he, hsame⟩
  · rw [he] at hset
    exact (List.sublist_append_right f.calls _).subperm.trans (hset.trans List.perm_append_comm).subperm
  · rw [hsame] at hset
    rw [he, List.append_nil]
    exact ((List.perm_append_left_iff _).1 hset).subperm

/-- The calls that stand in bodies. -/
def standing (a : Assembly) : List NamedCall := a.builder.functions.flatMap Function.calls

/-- Calls are numbered as they are made, and those that stand somewhere were put there once. -/
structure Sound (a : Assembly) : Prop where
  taken : a.taken = (List.range a.builder.nextSite).map CallSiteId.mk
  increasing : a.made.Pairwise fun c d => c.site.index < d.site.index
  below : ∀ c ∈ a.made, c.site.index < a.builder.nextSite
  arguments : ∀ c ∈ a.made, ∀ d ∈ exprCalls c.args, d.site.index < c.site.index
  placed : a.placed ⊆ a.made
  once : a.placed.Nodup
  stands : a.standing.Subperm a.placed

namespace Sound

variable {a : Assembly}

-- A builder that has numbered nothing and put nothing in a body.
theorem quiet (ha : a.Sound) {b : Builder} (hnext : b.nextSite = a.builder.nextSite)
    (hcalls : b.functions.flatMap Function.calls = a.standing) :
    Sound { a with builder := b } where
  taken := ha.taken.trans (by rw [hnext])
  increasing := ha.increasing
  below c hc := hnext.symm ▸ ha.below c hc
  arguments := ha.arguments
  placed := ha.placed
  once := ha.once
  stands := (List.Perm.of_eq hcalls).subperm.trans ha.stands

theorem allocate (ha : a.Sound) :
    Sound { a with
      builder := a.builder.takeSite.2
      taken := a.taken ++ [a.builder.takeSite.1] } where
  taken := by
    rw [ha.taken, Builder.takeSite, List.range_succ, List.map_append]
    rfl
  increasing := ha.increasing
  below c hc := Nat.lt_succ_of_lt (ha.below c hc)
  arguments := ha.arguments
  placed := ha.placed
  once := ha.once
  stands := ha.stands

/-- What is made next has a site of its own, after those of its arguments. -/
theorem call (ha : a.Sound) {name : Name} {args : List Expr} (hargs : exprCalls args ⊆ a.made)
    (span : Span) : (a.after (.call name args span)).Sound where
  taken := ha.allocate.taken
  increasing := by
    refine List.pairwise_append.2 ⟨ha.increasing, List.pairwise_singleton _ _, fun c hc d hd => ?_⟩
    obtain rfl := List.mem_singleton.1 hd
    exact ha.below c hc
  below c hc := by
    rcases List.mem_append.1 hc with hc | hc
    · exact Nat.lt_succ_of_lt (ha.below c hc)
    · obtain rfl := List.mem_singleton.1 hc
      exact Nat.lt_succ_self _
  arguments c hc d hd := by
    rcases List.mem_append.1 hc with hc | hc
    · exact ha.arguments c hc d hd
    · obtain rfl := List.mem_singleton.1 hc
      exact ha.below d (hargs hd)
  placed := List.subset_append_of_subset_left _ ha.placed
  once := ha.once
  stands := ha.stands

theorem edit (ha : a.Sound) {id : FunctionId} {e : Edit} (h : a.Allows (.edit id e)) :
    (a.after (.edit id e)).Sound := by
  have honce := h.once
  cases hf : a.builder.function? id with
  | none =>
    have hsame : a.after (.edit id e) = a := by simp [after, Builder.step, Builder.edit?, hf]
    rw [hsame]
    exact ha
  | some f =>
    have hafter : a.after (.edit id e) = { a with
        builder.functions := a.builder.functions.set id.index (f.edit e)
        placed := a.placed ++ e.calls } := by
      simp [after, Builder.step, Builder.edit?, hf]
    rw [hafter] at honce ⊢
    exact ⟨ha.taken, ha.increasing, ha.below, ha.arguments,
      List.append_subset.2 ⟨ha.placed, h.made⟩, honce,
      (subperm_set_edit hf e).trans ((List.subperm_append_right _).2 ha.stands)⟩

theorem step (ha : a.Sound) {s : Builder.Step} (h : a.Allows s) : (a.after s).Sound := by
  cases s with
  | addImport m =>
    have hsame : (a.builder.addImport m).nextSite = a.builder.nextSite ∧
        (a.builder.addImport m).functions = a.builder.functions := by
      rw [Builder.addImport]
      split <;> exact ⟨rfl, rfl⟩
    exact ha.quiet hsame.1 (congrArg (List.flatMap Function.calls) hsame.2)
  | declare name visibility kind span =>
    -- The new function has no body yet.
    refine ha.quiet rfl ?_
    rw [Builder.step, Builder.declare, List.flatMap_append, List.flatMap_singleton]
    exact List.append_nil _
  | allocate => exact ha.allocate
  | call name args span => exact ha.call h.made span
  | edit id e => exact ha.edit h

end Sound

theorem Of.sound {unit : Name} {a : Assembly} (h : a.Of unit) : a.Sound := by
  induction h with
  | start => exact ⟨rfl, .nil, nofun, nofun, nofun, .nil, .refl _⟩
  | step s _ hs ih => exact ih.step hs

/-! ## 3. Sites -/

namespace Sound

variable {a : Assembly} {c d : NamedCall}

theorem length_taken (ha : a.Sound) : a.taken.length = a.builder.nextSite := by
  rw [ha.taken, List.length_map, List.length_range]

theorem nodup_taken (ha : a.Sound) : a.taken.Nodup := by
  rw [ha.taken]
  exact List.nodup_range.map fun m n h => congrArg CallSiteId.index h

theorem mem_taken (ha : a.Sound) (hc : c ∈ a.made) : c.site ∈ a.taken := by
  rw [ha.taken]
  exact List.mem_map.2 ⟨c.site.index, List.mem_range.2 (ha.below c hc), rfl⟩

/-- Of two calls, the one that was made first has the smaller site. -/
theorem site_lt_iff (ha : a.Sound) (hc : c ∈ a.made) (hd : d ∈ a.made) :
    c.site.index < d.site.index ↔ [c, d].Sublist a.made := by
  constructor
  · intro hlt
    obtain ⟨before, after, hmade⟩ := List.append_of_mem hd
    rw [hmade] at hc ⊢
    refine (List.singleton_sublist.2 ?_).append (List.cons_sublist_cons.2 (List.nil_sublist _))
    rcases List.mem_append.1 hc with hc | hc
    · exact hc
    -- What comes from `d` on has no smaller site.
    have hincreasing := ha.increasing
    rw [hmade, List.pairwise_append, List.pairwise_cons] at hincreasing
    rcases List.mem_cons.1 hc with rfl | hc
    · exact absurd hlt (Nat.lt_irrefl _)
    · exact absurd hlt (Nat.lt_asymm (hincreasing.2.1.1 c hc))
  · exact fun h => List.pairwise_iff_forall_sublist.1 ha.increasing h

theorem eq_of_site (ha : a.Sound) (hc : c ∈ a.made) (hd : d ∈ a.made) (h : c.site = d.site) :
    c = d := by
  have hnodup : (a.made.map NamedCall.site).Nodup := by
    refine List.pairwise_map.2 (ha.increasing.imp fun hlt heq => ?_)
    exact Nat.ne_of_lt hlt (congrArg CallSiteId.index heq)
  exact List.inj_on_of_nodup_map hnodup hc hd h

theorem standing_subset (ha : a.Sound) : a.standing ⊆ a.made :=
  fun _ hc => ha.placed (ha.stands.subset hc)

theorem nodup_standing (ha : a.Sound) : (a.standing.map NamedCall.site).Nodup := by
  obtain ⟨l, hperm, hsub⟩ := ha.stands
  have hnodup : a.standing.Nodup := hperm.nodup_iff.1 (hsub.nodup ha.once)
  refine hnodup.map_on fun c hc d hd h => ?_
  exact ha.eq_of_site (ha.standing_subset hc) (ha.standing_subset hd) h

theorem map_site_standing (a : Assembly) :
    a.standing.map NamedCall.site = a.builder.functions.flatMap Function.sites := by
  rw [standing, List.map_flatMap]
  exact List.flatMap_congr fun f _ => f.sites_eq.symm

/-- A unit that is put together so has a site for each call. -/
theorem distinct (ha : a.Sound) : a.builder.Distinct := by
  rw [Builder.distinct_iff, ← map_site_standing]
  refine ⟨ha.nodup_standing, fun s hs => ?_⟩
  obtain ⟨c, hc, rfl⟩ := List.mem_map.1 hs
  exact ha.below c (ha.standing_subset hc)

end Sound

/-! ## 4. Bodies written down as a whole -/

/-- From `a`, making the calls `cs` leads to `a'`, where the next number is `k`. -/
structure Makes (unit : Name) (a : Assembly) (cs : List NamedCall) (k : Nat) (a' : Assembly) :
    Prop where
  of : a'.Of unit
  builder : a'.builder = { a.builder with nextSite := k }
  placed : a'.placed = a.placed
  le : a.builder.nextSite ≤ k
  kept : a.made ⊆ a'.made
  made : cs ⊆ a'.made
  fresh : ∀ c ∈ cs, a.builder.nextSite ≤ c.site.index
  nodup : (cs.map NamedCall.site).Nodup

namespace Makes

variable {unit : Name} {a a' a'' : Assembly} {cs ds : List NamedCall} {k l : Nat}

theorem refl (ha : a.Of unit) : Makes unit a [] a.builder.nextSite a :=
  ⟨ha, rfl, rfl, Nat.le_refl _, .refl _, nofun, nofun, .nil⟩

theorem nextSite (h : Makes unit a cs k a') : a'.builder.nextSite = k := by rw [h.builder]

theorem lt (h : Makes unit a cs k a') {c : NamedCall} (hc : c ∈ cs) : c.site.index < k :=
  h.nextSite ▸ h.of.sound.below c (h.made hc)

theorem append (h : Makes unit a cs k a') (h' : Makes unit a' ds l a'') :
    Makes unit a (cs ++ ds) l a'' where
  of := h'.of
  builder := by rw [h'.builder, h.builder]
  placed := h'.placed.trans h.placed
  le := Nat.le_trans h.le (h.nextSite ▸ h'.le)
  kept := List.Subset.trans h.kept h'.kept
  made := List.append_subset.2 ⟨List.Subset.trans h.made h'.kept, h'.made⟩
  fresh c hc := by
    rcases List.mem_append.1 hc with hc | hc
    · exact h.fresh c hc
    · exact Nat.le_trans h.le (h.nextSite ▸ h'.fresh c hc)
  nodup := by
    rw [List.map_append, List.nodup_append']
    refine ⟨h.nodup, h'.nodup, fun s hs ht => ?_⟩
    -- The first calls are numbered below `k`, the others from there on.
    obtain ⟨c, hc, rfl⟩ := List.mem_map.1 hs
    obtain ⟨d, hd, hsite⟩ := List.mem_map.1 ht
    have hlt := h.lt hc
    have hle := h'.fresh d hd
    rw [hsite, h.nextSite] at hle
    exact absurd hlt (Nat.not_lt.2 hle)

/-- With its arguments there, perhaps among other calls, a call is made. -/
theorem call (h : Makes unit a cs k a') {name : Name} {args : List Expr}
    (hargs : exprCalls args ⊆ cs) (span : Span) :
    ∃ a'', Makes unit a (⟨name, args, ⟨k⟩, span⟩ :: cs) (k + 1) a'' := by
  have hstep : a'.Allows (.call name args span) :=
    ⟨List.Subset.trans hargs h.made, h.of.sound.once⟩
  have hnext := h.nextSite
  refine ⟨_, .step _ h.of hstep, ?_, h.placed, Nat.le_succ_of_le h.le,
    List.subset_append_of_subset_left _ h.kept, ?_, fun c hc => ?_, ?_⟩
  · show a'.builder.takeSite.2 = _
    rw [Builder.takeSite, hnext, h.builder]
  · rw [← hnext]
    exact List.cons_subset.2 ⟨List.mem_append_right _ List.mem_cons_self,
      List.subset_append_of_subset_left _ h.made⟩
  · rcases List.mem_cons.1 hc with rfl | hc
    · exact h.le
    · exact h.fresh c hc
  · refine List.nodup_cons.2 ⟨fun hmem => ?_, h.nodup⟩
    obtain ⟨c, hc, hsite⟩ := List.mem_map.1 hmem
    have hlt := h.lt hc
    rw [hsite] at hlt
    exact Nat.lt_irrefl k hlt

/-- What was just made can be put in a body. -/
theorem allows_edit {e : Edit} (h : Makes unit a e.calls k a') (ha : a.Sound) (id : FunctionId) :
    a'.Allows (.edit id e) where
  made := h.made
  once := by
    show (if _ then a'.placed ++ e.calls else a'.placed).Nodup
    rw [h.placed]
    split
    · refine List.nodup_append'.2 ⟨ha.once, h.nodup.of_map, fun c hc hc' => ?_⟩
      exact absurd (ha.below c (ha.placed hc)) (Nat.not_lt.2 (h.fresh c hc'))
    · exact ha.once

end Makes

end Assembly

section Numbering

open Assembly

variable {unit : Name}

mutual

/-- Numbering an expression makes its calls, from the inside out. -/
theorem Expr.makes_number (e : Expr) {a : Assembly} {k : Nat} (ha : a.Of unit)
    (hk : a.builder.nextSite = k) :
    ∃ a', Makes unit a (e.number k).1.calls (e.number k).2 a' := by
  cases e with
  | literal | reference | functionRef | closure | newObject => exact ⟨a, hk ▸ .refl ha⟩
  | call n args site r s =>
    obtain ⟨a', hargs⟩ := makes_numberExprs args ha hk
    exact hargs.call (.refl _) s
  | method x n args site t s =>
    obtain ⟨a', hx⟩ := x.makes_number ha hk
    obtain ⟨a'', hargs⟩ := makes_numberExprs args hx.of hx.nextSite
    exact (hx.append hargs).call (List.subset_append_right _ _) s
  | binary op x y s =>
    obtain ⟨a', hx⟩ := x.makes_number ha hk
    obtain ⟨a'', hy⟩ := y.makes_number hx.of hx.nextSite
    exact ⟨a'', hx.append hy⟩
  | unary op x s => exact x.makes_number ha hk

theorem makes_numberExprs (es : List Expr) {a : Assembly} {k : Nat} (ha : a.Of unit)
    (hk : a.builder.nextSite = k) :
    ∃ a', Makes unit a (exprCalls (numberExprs k es).1) (numberExprs k es).2 a' := by
  cases es with
  | nil => exact ⟨a, hk ▸ .refl ha⟩
  | cons e rest =>
    obtain ⟨a', he⟩ := e.makes_number ha hk
    obtain ⟨a'', hrest⟩ := makes_numberExprs rest he.of he.nextSite
    exact ⟨a'', he.append hrest⟩

end

mutual

theorem Stmt.makes_number (s : Stmt) {a : Assembly} {k : Nat} (ha : a.Of unit)
    (hk : a.builder.nextSite = k) :
    ∃ a', Makes unit a (s.number k).1.calls (s.number k).2 a' := by
  cases s with
  | bind kind n v sp | assign n v sp | expr v sp => exact v.makes_number ha hk
  | ret v sp =>
    cases v with
    | none => exact ⟨a, hk ▸ .refl ha⟩
    | some v => exact v.makes_number ha hk
  | ifThen c b sp | loop c b sp =>
    obtain ⟨a', hc⟩ := c.makes_number ha hk
    obtain ⟨a'', hb⟩ := b.makes_number hc.of hc.nextSite
    exact ⟨a'', hc.append hb⟩
  | ifThenElse c b o sp =>
    obtain ⟨_, hc⟩ := c.makes_number ha hk
    obtain ⟨_, hb⟩ := b.makes_number hc.of hc.nextSite
    obtain ⟨a', ho⟩ := o.makes_number hb.of hb.nextSite
    exact ⟨a', (hc.append hb).append ho⟩
  | block b sp => exact b.makes_number ha hk

theorem Block.makes_number (b : Block) {a : Assembly} {k : Nat} (ha : a.Of unit)
    (hk : a.builder.nextSite = k) :
    ∃ a', Makes unit a (b.number k).1.calls (b.number k).2 a' := by
  obtain ⟨ss, sp⟩ := b
  exact makes_numberStmts ss ha hk

theorem makes_numberStmts (ss : List Stmt) {a : Assembly} {k : Nat} (ha : a.Of unit)
    (hk : a.builder.nextSite = k) :
    ∃ a', Makes unit a (stmtCalls (numberStmts k ss).1) (numberStmts k ss).2 a' := by
  cases ss with
  | nil => exact ⟨a, hk ▸ .refl ha⟩
  | cons s rest =>
    obtain ⟨a', hs⟩ := s.makes_number ha hk
    obtain ⟨a'', hrest⟩ := makes_numberStmts rest hs.of hs.nextSite
    exact ⟨a'', hs.append hrest⟩

end

end Numbering

theorem Builder.perform_edit (b : Builder) (id : FunctionId) (e : Edit) :
    (b.perform (.edit id e)).2 = (b.prepare e).2.step (.edit id (b.prepare e).1) := by
  simp only [perform, step]
  cases (b.prepare e).2.edit? id (b.prepare e).1 <;> rfl

namespace Assembly

variable {unit : Name} {a : Assembly}

/-- The calls of a body are made before the body is attached. -/
theorem exists_prepare (ha : a.Of unit) (e : Edit) :
    ∃ a', Makes unit a (a.builder.prepare e).1.calls (a.builder.prepare e).2.nextSite a' ∧
      a'.builder = (a.builder.prepare e).2 := by
  cases e with
  | body block =>
    obtain ⟨a', h⟩ := block.makes_number ha rfl
    exact ⟨a', h, h.builder⟩
  | parameters | syntheticParameter | varargs | synthetic | target => exact ⟨a, .refl ha, rfl⟩

/-- A command is steps of putting the unit together. -/
theorem exists_perform (ha : a.Of unit) (c : Command) :
    ∃ a' : Assembly, a'.Of unit ∧ a'.builder = (a.builder.perform c).2 := by
  cases c with
  | addImport m => exact ⟨_, .step (.addImport m) ha ⟨nofun, ha.sound.once⟩, rfl⟩
  | declare name visibility kind span =>
    exact ⟨_, .step (.declare name visibility kind span) ha ⟨nofun, ha.sound.once⟩, rfl⟩
  | allocate => exact ⟨_, .step .allocate ha ⟨nofun, ha.sound.once⟩, rfl⟩
  | edit id e =>
    obtain ⟨a', h, hbuilder⟩ := exists_prepare ha e
    refine ⟨_, .step _ h.of (h.allows_edit ha.sound id), ?_⟩
    rw [builder_after, hbuilder, Builder.perform_edit]

theorem exists_performAll (ha : a.Of unit) (cs : List Command) :
    ∃ a' : Assembly, a'.Of unit ∧ a'.builder = a.builder.performAll cs := by
  induction cs generalizing a with
  | nil => exact ⟨a, ha, rfl⟩
  | cons c rest ih =>
    obtain ⟨a', ha', hc⟩ := exists_perform ha c
    obtain ⟨a'', ha'', hrest⟩ := ih ha'
    rw [hc] at hrest
    exact ⟨a'', ha'', hrest⟩

end Assembly

/-- Bodies that are written down as a whole get a site for each call. -/
theorem Builder.distinct_performAll (unit : Name) (cs : List Command) :
    ((ofName unit).performAll cs).Distinct := by
  have hstart : Assembly.Of unit ⟨ofName unit, [], [], []⟩ := .start
  obtain ⟨a, ha, hbuilder⟩ := Assembly.exists_performAll hstart cs
  exact hbuilder ▸ ha.sound.distinct

end LateBind

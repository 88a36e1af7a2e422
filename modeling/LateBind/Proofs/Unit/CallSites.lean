import LateBind.Proofs.Lexical.Blocks
import LateBind.Proofs.Lexical.Places
import LateBind.Unit.Builder
import LateBind.Lexical.SiteTable
import Mathlib.Data.List.Nodup

/-!
# Call sites of a unit

The calls of an expression are the expression itself, if it is one, and those of its parts; the calls
of a body are those of the expressions in it. Where no two calls of a unit share a site, as when each
was made for its place, a table of findings about the calls holds for each just what was found there.
-/

namespace LateBind

/-! ## 1. Expressions -/

/-- The site of a call. -/
def Mark.site? : Mark → Option CallSiteId
  | .call _ _ site _ _ | .method _ _ site _ _ => some site
  | _ => none

def callSites (ms : List Mark) : List CallSiteId := ms.filterMap Mark.site?

/-- The site of an expression that is a call. -/
def Expr.site? : Expr → Option CallSiteId
  | .call _ _ site _ _ | .method _ _ _ site _ _ => some site
  | _ => none

theorem Expr.site?_eq (e : Expr) : e.site? = e.namedCall?.map NamedCall.site := by cases e <;> rfl

theorem callSites_append (ms ms' : List Mark) :
    callSites (ms ++ ms') = callSites ms ++ callSites ms' :=
  List.filterMap_append

mutual

/-- The calls in an expression, a call before those it is made of. -/
def Expr.calls (e : Expr) : List NamedCall :=
  match e with
  | .literal .. | .reference .. | .functionRef .. | .closure .. | .newObject _ => []
  | .call n args site _ s => ⟨n, args, site, s⟩ :: exprCalls args
  | .method x n args site _ s => ⟨n, args, site, s⟩ :: (x.calls ++ exprCalls args)
  | .binary _ l r _ => l.calls ++ r.calls
  | .unary _ x _ => x.calls

def exprCalls (es : List Expr) : List NamedCall :=
  match es with
  | [] => []
  | e :: rest => e.calls ++ exprCalls rest

end

theorem exprCalls_eq (es : List Expr) : exprCalls es = es.flatMap Expr.calls := by
  induction es with
  | nil => rfl
  | cons e rest ih => rw [exprCalls, ih, List.flatMap_cons]

mutual

theorem Expr.callSites_marks (e : Expr) : callSites e.marks = e.calls.map NamedCall.site := by
  cases e with
  | literal | reference | functionRef | closure | newObject => rfl
  | call n args site r s => exact congrArg (site :: ·) (callSites_exprMarks args)
  | method x n args site t s =>
    rw [Expr.calls, List.map_cons, List.map_append, ← x.callSites_marks, ← callSites_exprMarks args,
      ← callSites_append]
    rfl
  | binary op l r s =>
    rw [Expr.calls, List.map_append, ← l.callSites_marks, ← r.callSites_marks, ← callSites_append]
    rfl
  | unary op x s => exact x.callSites_marks

theorem callSites_exprMarks (es : List Expr) :
    callSites (exprMarks es) = (exprCalls es).map NamedCall.site := by
  cases es with
  | nil => rfl
  | cons e rest =>
    rw [exprMarks, callSites_append, e.callSites_marks, callSites_exprMarks rest, exprCalls,
      List.map_append]

end

theorem Expr.Has.calls {e d : Expr} (h : e.Has d) {c : NamedCall} (hc : c ∈ d.calls) :
    c ∈ e.calls := by
  have hargs : ∀ {args : List Expr} {a : Expr}, a ∈ args → c ∈ a.calls → c ∈ exprCalls args := by
    intro args a ha hc
    rw [exprCalls_eq]
    exact List.mem_flatMap.2 ⟨a, ha, hc⟩
  induction h with
  | self => exact hc
  | argument ha _ ih => exact List.mem_cons_of_mem _ (hargs ha (ih hc))
  | receiver _ ih => exact List.mem_cons_of_mem _ (List.mem_append_left _ (ih hc))
  | methodArgument ha _ ih =>
    exact List.mem_cons_of_mem _ (List.mem_append_right _ (hargs ha (ih hc)))
  | left _ ih => exact List.mem_append_left _ (ih hc)
  | right _ ih => exact List.mem_append_right _ (ih hc)
  | operand _ ih => exact ih hc

theorem Expr.Has.mem_calls {e d : Expr} (h : e.Has d) {c : NamedCall}
    (hc : d.namedCall? = some c) : c ∈ e.calls := by
  refine h.calls ?_
  cases d with
  | call | method =>
    cases hc
    exact List.mem_cons_self
  | _ => cases hc

/-! ## 2. Bodies -/

mutual

/-- The calls in a statement, those of the blocks inside it included. -/
def Stmt.calls (s : Stmt) : List NamedCall :=
  match s with
  | .bind _ _ v _ | .assign _ v _ | .expr v _ => v.calls
  | .ret v _ => v.elim [] Expr.calls
  | .ifThen c b _ | .loop c b _ => c.calls ++ b.calls
  | .ifThenElse c b o _ => c.calls ++ b.calls ++ o.calls
  | .block b _ => b.calls

def Block.calls (b : Block) : List NamedCall :=
  match b with
  | .mk ss _ => stmtCalls ss

def stmtCalls (ss : List Stmt) : List NamedCall :=
  match ss with
  | [] => []
  | s :: rest => s.calls ++ stmtCalls rest

end

theorem Stmt.calls_eq (s : Stmt) :
    s.calls = s.exprs.flatMap Expr.calls ++ s.blocks.flatMap Block.calls := by
  cases s with
  | ret v sp => cases v <;> simp [Stmt.calls, exprs, blocks]
  | _ => simp [Stmt.calls, exprs, blocks]

theorem stmtCalls_eq (ss : List Stmt) : stmtCalls ss = ss.flatMap Stmt.calls := by
  induction ss with
  | nil => rfl
  | cons s rest ih => rw [stmtCalls, ih, List.flatMap_cons]

theorem Block.Stands.calls {b : Block} {bs : List (List Slot)} {t : Stmt} (h : b.Stands bs t)
    {c : NamedCall} (hc : c ∈ t.calls) : c ∈ b.calls := by
  induction h with
  | here =>
    rw [Block.calls, stmtCalls_eq]
    exact List.mem_flatMap.2 ⟨_, List.mem_append_right _ List.mem_cons_self, hc⟩
  | @inside before s after sp b bs t hb _ ih =>
    rw [Block.calls, stmtCalls_eq]
    refine List.mem_flatMap.2 ⟨s, List.mem_append_right _ List.mem_cons_self, ?_⟩
    rw [s.calls_eq]
    exact List.mem_append_right _ (List.mem_flatMap.2 ⟨b, hb, ih hc⟩)

/-- The call sites at the places of a walk. -/
def sitesAlong (qs : List Place) : List CallSiteId := callSites (qs.map (·.mark))

theorem sitesAlong_append (qs rs : List Place) :
    sitesAlong (qs ++ rs) = sitesAlong qs ++ sitesAlong rs := by
  rw [sitesAlong, List.map_append, callSites_append]
  rfl

theorem sitesAlong_marks (ns : List Name) (e : Expr) :
    sitesAlong (e.marks.map (⟨ns, ·⟩)) = e.calls.map NamedCall.site := by
  rw [sitesAlong, List.map_map, ← e.callSites_marks]
  exact congrArg callSites (List.map_id e.marks)

mutual

theorem Stmt.sitesAlong_walk (s : Stmt) (ns : List Name) :
    sitesAlong (s.walk ns) = s.calls.map NamedCall.site := by
  cases s with
  | bind k n v sp =>
    rw [Stmt.walk, sitesAlong_append, sitesAlong_marks]
    exact List.append_nil _
  | assign n v sp => exact sitesAlong_marks ns v
  | expr v sp => exact sitesAlong_marks ns v
  | ret v sp =>
    cases v with
    | none => rfl
    | some v => exact sitesAlong_marks ns v
  | ifThen c b sp | loop c b sp =>
    rw [Stmt.walk, sitesAlong_append, sitesAlong_marks, b.sitesAlong_walk, Stmt.calls,
      List.map_append]
  | ifThenElse c b o sp =>
    rw [Stmt.walk, sitesAlong_append, sitesAlong_append, sitesAlong_marks, b.sitesAlong_walk,
      o.sitesAlong_walk, Stmt.calls, List.map_append, List.map_append]
  | block b sp => exact b.sitesAlong_walk ns

theorem Block.sitesAlong_walk (b : Block) (ns : List Name) :
    sitesAlong (b.walk ns) = b.calls.map NamedCall.site := by
  obtain ⟨ss, sp⟩ := b
  exact sitesAlong_stmtWalk ss ns

theorem sitesAlong_stmtWalk (ss : List Stmt) (ns : List Name) :
    sitesAlong (stmtWalk ns ss) = (stmtCalls ss).map NamedCall.site := by
  cases ss with
  | nil => rfl
  | cons s rest =>
    rw [stmtWalk, sitesAlong_append, s.sitesAlong_walk, sitesAlong_stmtWalk rest, stmtCalls,
      List.map_append]

end

/-- The calls in a function's body. -/
def Function.calls (f : Function) : List NamedCall := f.body.elim [] Block.calls

/-- The sites of the calls in a function's body. -/
def Function.sites (f : Function) : List CallSiteId := sitesAlong f.walk

theorem Function.sites_eq (f : Function) : f.sites = f.calls.map NamedCall.site := by
  unfold sites walk calls
  cases f.body with
  | none => rfl
  | some b => exact b.sitesAlong_walk f.params

theorem Function.Holds.mem_calls {f : Function} {bs : List (List Slot)} {d : Expr}
    (h : f.Holds bs d) {c : NamedCall} (hc : d.namedCall? = some c) : c ∈ f.calls := by
  obtain ⟨t, e, ⟨b, inner, hb, ht, -⟩, he, hd⟩ := h
  rw [calls, hb]
  refine ht.calls ?_
  rw [t.calls_eq]
  exact List.mem_append_left _ (List.mem_flatMap.2 ⟨e, he, hd.mem_calls hc⟩)

/-! ## 3. Units -/

/-- No two calls of the functions share a site, and all sites are below `nextSite`. -/
structure Builder.Distinct (b : Builder) : Prop where
  below : ∀ (i : Nat) (x : Function), b.functions[i]? = some x → ∀ s ∈ x.sites, s.index < b.nextSite
  nodup : ∀ (i : Nat) (x : Function), b.functions[i]? = some x → x.sites.Nodup
  apart : ∀ (i j : Nat) (x y : Function), b.functions[i]? = some x → b.functions[j]? = some y →
    ∀ s ∈ x.sites, s ∈ y.sites → i = j

/-- No site occurs twice among all calls, and all are below the next number. -/
theorem Builder.distinct_iff {b : Builder} :
    b.Distinct ↔ (b.functions.flatMap Function.sites).Nodup ∧
      ∀ s ∈ b.functions.flatMap Function.sites, s.index < b.nextSite := by
  constructor
  · intro hb
    refine ⟨List.nodup_flatMap.2 ⟨fun x hx => ?_, List.pairwise_iff_getElem.2 fun i j hi hj hlt => ?_⟩,
      fun s hs => ?_⟩
    · obtain ⟨i, hi⟩ := List.mem_iff_getElem?.1 hx
      exact hb.nodup i x hi
    · intro s hs ht
      have := hb.apart i j _ _ (List.getElem?_eq_getElem hi) (List.getElem?_eq_getElem hj) s hs ht
      omega
    · obtain ⟨x, hx, hs⟩ := List.mem_flatMap.1 hs
      obtain ⟨i, hi⟩ := List.mem_iff_getElem?.1 hx
      exact hb.below i x hi s hs
  · rintro ⟨hnodup, hbelow⟩
    rw [List.nodup_flatMap, List.pairwise_iff_getElem] at hnodup
    obtain ⟨hnodup, hdisjoint⟩ := hnodup
    have hapart : ∀ (i j : Nat) (x y : Function), b.functions[i]? = some x →
        b.functions[j]? = some y → ∀ s ∈ x.sites, s ∈ y.sites → ¬i < j := by
      intro i j x y hx hy s hs ht hlt
      obtain ⟨hi, rfl⟩ := List.getElem?_eq_some_iff.1 hx
      obtain ⟨hj, rfl⟩ := List.getElem?_eq_some_iff.1 hy
      exact hdisjoint i j hi hj hlt hs ht
    refine ⟨fun i x hx s hs => ?_, fun i x hx => ?_, fun i j x y hx hy s hs ht => ?_⟩
    · exact hbelow s (List.mem_flatMap.2 ⟨x, List.mem_of_getElem? hx, hs⟩)
    · exact hnodup x (List.mem_of_getElem? hx)
    · have := hapart i j x y hx hy s hs ht
      have := hapart j i y x hy hx s ht hs
      omega

/-! ## 4. Findings -/

theorem eq_of_count_filterMap {α β : Type} [BEq α] [LawfulBEq α] {ps : List β} {key : β → Option α}
    {s : α} (hcount : (ps.filterMap key).count s ≤ 1) {p q : β} (hp : p ∈ ps) (hq : q ∈ ps)
    (hps : key p = some s) (hqs : key q = some s) : p = q := by
  induction ps with
  | nil => exact absurd hp List.not_mem_nil
  | cons r rest ih =>
    have hpos : ∀ t ∈ rest, key t = some s → 0 < (rest.filterMap key).count s := fun t ht hts =>
      List.count_pos_iff.2 (List.mem_filterMap.2 ⟨t, ht, hts⟩)
    have hhead : key r = some s → (rest.filterMap key).count s = 0 := fun hr => by
      rw [List.filterMap_cons_some hr, List.count_cons_self] at hcount
      omega
    rcases List.mem_cons.1 hp with rfl | hp'
    · rcases List.mem_cons.1 hq with rfl | hq'
      · rfl
      · exact absurd (hhead hps) (Nat.ne_of_gt (hpos q hq' hqs))
    · rcases List.mem_cons.1 hq with rfl | hq'
      · exact absurd (hhead hqs) (Nat.ne_of_gt (hpos p hp' hps))
      · refine ih (Nat.le_trans ?_ hcount) hp' hq'
        exact ((List.sublist_cons_self r rest).filterMap key).count_le s

theorem SiteTable.mem_of_get? {α : Type} {t : SiteTable α} {s : CallSiteId} {v : α}
    (h : t.get? s = some v) : (s, v) ∈ t.findings := by
  obtain ⟨⟨s', v'⟩, hfind, rfl⟩ := Option.map_eq_some_iff.1 h
  have hsite := List.find?_some hfind
  obtain rfl : s' = s := eq_of_beq hsite
  exact List.mem_reverse.1 (List.mem_of_find?_eq_some hfind)

-- Where no other of `ps` is about its site, a table holds what was found for `p`.
theorem SiteTable.get?_filterMap {α β : Type} {ps : List β} {key : β → Option CallSiteId}
    {g : β → Option (CallSiteId × α)} (hkey : ∀ p s v, g p = some (s, v) → key p = some s)
    {p : β} (hp : p ∈ ps) {s : CallSiteId} (hcount : (ps.filterMap key).count s ≤ 1)
    (hs : key p = some s) :
    (⟨ps.filterMap g⟩ : SiteTable α).get? s = (g p).map (·.2) := by
  unfold SiteTable.get?
  -- The table answers with its last entry, but there is one at most.
  cases hfind : (ps.filterMap g).reverse.find? (·.1 == s) with
  | some e =>
    obtain ⟨t, v⟩ := e
    have hts := List.find?_some hfind
    obtain rfl : t = s := eq_of_beq hts
    have hmem := List.mem_reverse.1 (List.mem_of_find?_eq_some hfind)
    obtain ⟨q, hq, hgq⟩ := List.mem_filterMap.1 hmem
    rw [eq_of_count_filterMap hcount hp hq hs (hkey q t v hgq), hgq]
  | none =>
    cases hgp : g p with
    | none => rfl
    | some e =>
      obtain ⟨t, v⟩ := e
      have hts : t = s := Option.some.inj ((hkey p t v hgp).symm.trans hs)
      have hmem : (t, v) ∈ (ps.filterMap g).reverse :=
        List.mem_reverse.2 (List.mem_filterMap.2 ⟨p, hp, hgp⟩)
      exact absurd (beq_iff_eq.2 hts) (List.find?_eq_none.1 hfind _ hmem)

end LateBind

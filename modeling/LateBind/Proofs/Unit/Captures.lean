import LateBind.Proofs.Unit.Free
import LateBind.Unit.Builder

/-!
# What closures capture

A name is visible in a function where the function itself has bound it, and in a closure also where
it is visible at the place that makes the closure. A closure of a published unit captures those of
its free names that are visible where it is made.
-/

namespace LateBind

/-! ## 1. Visible names -/

/-- Function `f` makes closure `c` where it has bound `ns`. -/
def MadeIn (fs : List Function) (c f : FunctionId) (ns : List Name) : Prop :=
  ∃ x sp, fs[f.index]? = some x ∧ x.Does ns (.closure c sp)

/-- `n` is visible in function `f` where that has bound `ns`. -/
inductive Visible (fs : List Function) : FunctionId → List Name → Name → Prop where
  | here {f : FunctionId} {ns : List Name} {n : Name} : n ∈ ns → Visible fs f ns n
  /-- Some function around `f` has bound it where the next one inwards is made. -/
  | around {f g : FunctionId} {ns ms : List Name} {n : Name} :
      MadeIn fs f g ms → Visible fs g ms n → Visible fs f ns n

/-- `n` is visible where closure `c` is made. -/
def VisibleAround (fs : List Function) (c : FunctionId) (n : Name) : Prop :=
  ∃ g ns, MadeIn fs c g ns ∧ Visible fs g ns n

theorem visible_iff {fs : List Function} {f : FunctionId} {ns : List Name} {n : Name} :
    Visible fs f ns n ↔ n ∈ ns ∨ VisibleAround fs f n := by
  constructor
  · intro h
    cases h with
    | here hn => exact .inl hn
    | around hmade hn => exact .inr ⟨_, _, hmade, hn⟩
  · rintro (hn | ⟨g, ms, hmade, hn⟩)
    · exact .here hn
    · exact .around hmade hn

namespace Nesting

variable {fs : List Function}

-- A closure is made at the place of its site and at no other.
theorem WellNested.madeIn_iff (hw : (ofFunctions fs).WellNested) {c : FunctionId}
    {s : ClosureSite} (hs : (ofFunctions fs).siteOf? c = some s) {g : FunctionId}
    {ns : List Name} (hmade : MadeIn fs c g ns) : g = s.owner ∧ s.scope.Binds ns := by
  obtain ⟨x, sp, hx, hd⟩ := hmade
  obtain ⟨s', hs', howner, hscope⟩ := hw.siteOf?_of_does hx hd
  rw [hs] at hs'
  cases hs'
  exact ⟨howner.symm, hscope⟩

theorem WellNested.enclosing?_of_madeIn (hw : (ofFunctions fs).WellNested) {c g : FunctionId}
    {ns : List Name} (hmade : MadeIn fs c g ns) : (ofFunctions fs).enclosing? c = some g := by
  obtain ⟨x, sp, hx, hd⟩ := hmade
  obtain ⟨s, hs, howner, -⟩ := hw.siteOf?_of_does hx hd
  rw [enclosing?, hs, Option.map_some, howner]

/-- With enough fuel the analysis finds the free names that are visible where the closure is
made. -/
theorem WellNested.mem_capturesWithin (hw : (ofFunctions fs).WellNested) {k : Nat}
    {c : FunctionId} {d : Nat} (hd : (ofFunctions fs).Depth c d) (hk : d < k) {n : Name} :
    n ∈ (ofFunctions fs).capturesWithin k c ↔ FreeIn fs c n ∧ VisibleAround fs c n := by
  -- Each unit of fuel goes one function outwards.
  induction k generalizing c d with
  | zero => omega
  | succ k ih =>
    rw [capturesWithin]
    split
    next hs =>
      refine ⟨fun hn => absurd hn List.not_mem_nil, ?_⟩
      rintro ⟨-, g, ns, hmade, -⟩
      have hp := hw.enclosing?_of_madeIn hmade
      rw [enclosing?, hs] at hp
      cases hp
    next s hs =>
      obtain ⟨x, ns, hx, hdoes, hscope⟩ := does_of_siteOf? hs
      have hmade : MadeIn fs c s.owner ns := ⟨x, s.span, hx, hdoes⟩
      obtain ⟨e, rfl, he⟩ := hd.of_siteOf? hs
      have hfree := hw.mem_freeNames hd (n := n)
      have hinherited := ih he (by omega)
      show n ∈ List.filter _ ((ofFunctions fs).freeNames fs.length c) ↔ _
      rw [List.mem_filter, hfree, Bool.or_eq_true, hscope n, List.contains_iff_mem, hinherited]
      refine and_congr_right fun hn => ⟨?_, ?_⟩
      · rintro (hbound | ⟨-, haround⟩)
        · exact ⟨s.owner, ns, hmade, .here hbound⟩
        · exact ⟨s.owner, ns, hmade, visible_iff.2 (.inr haround)⟩
      · rintro ⟨g, ms, hmade', hvisible⟩
        obtain ⟨rfl, hscope'⟩ := hw.madeIn_iff hs hmade'
        by_cases hbound : n ∈ ns
        · exact .inl hbound
        -- What is not bound where the closure is made is free in its parent too.
        · have hms : n ∉ ms := fun h => hbound ((hscope n).1 ((hscope' n).2 h))
          exact .inr ⟨.inner hx hdoes hn hbound, (visible_iff.1 hvisible).resolve_left hms⟩

theorem WellNested.mem_captures (hw : (ofFunctions fs).WellNested) {c : FunctionId}
    (hc : c.index < fs.length) {n : Name} :
    n ∈ (ofFunctions fs).captures c ↔ FreeIn fs c n ∧ VisibleAround fs c n := by
  obtain ⟨d, hd⟩ := hw.depth c hc
  exact hw.mem_capturesWithin hd hd.lt

-- Captured names are in the order of the walk through the closure.
theorem WellNested.captures_sublist (hw : (ofFunctions fs).WellNested) {c : FunctionId}
    (hc : c.index < fs.length) :
    ∃ ws, FreeWalk fs c ws ∧ ((ofFunctions fs).captures c).Sublist ws.eraseDups := by
  obtain ⟨d, hd⟩ := hw.depth c hc
  obtain ⟨ws, hws, heq⟩ := hw.exists_freeWalk hd (Nat.le_add_right _ _)
  refine ⟨ws, hws, ?_⟩
  rw [← heq, captures]
  cases (ofFunctions fs).functions.length with
  | zero => exact List.nil_sublist _
  | succ k =>
    rw [capturesWithin]
    split
    · exact List.nil_sublist _
    · exact List.filter_sublist

-- What a closure captures is in scope where it is made, once its parent has what it captures
-- itself.
theorem WellNested.captures_in_scope (hw : (ofFunctions fs).WellNested) {c g : FunctionId}
    {ns : List Name} (hmade : MadeIn fs c g ns) {n : Name}
    (hn : n ∈ (ofFunctions fs).captures c) : n ∈ ns ∨ n ∈ (ofFunctions fs).captures g := by
  have hp := hw.enclosing?_of_madeIn hmade
  have hc := declared_of_isClosure (isClosure_of_enclosing? hp)
  obtain ⟨hfree, g', ms, hmade', hvisible⟩ := (hw.mem_captures hc).1 hn
  obtain ⟨s, hs, howner⟩ := Option.map_eq_some_iff.1 hp
  obtain ⟨rfl, hscope'⟩ := hw.madeIn_iff hs hmade'
  obtain ⟨rfl, hscope⟩ := hw.madeIn_iff hs hmade
  obtain ⟨x, sp, hx, hdoes⟩ := hmade
  by_cases hbound : n ∈ ns
  · exact .inl hbound
  · have hms : n ∉ ms := fun h => hbound ((hscope n).1 ((hscope' n).2 h))
    have hlt : s.owner.index < fs.length := (List.getElem?_eq_some_iff.1 hx).1
    exact .inr ((hw.mem_captures hlt).2
      ⟨.inner hx hdoes hfree hbound, (visible_iff.1 hvisible).resolve_left hms⟩)

end Nesting

/-! ## 2. Published units -/

namespace Builder

variable {b : Builder} {m : Module}

theorem publish_of_finish {names : Interner} (h : b.finish names = .ok m) : b.publish = .ok m := by
  unfold finish at h
  split at h
  next hm =>
    cases h
    exact hm
  next => cases h

theorem publish_eq_ok (h : b.publish = .ok m) :
    b.nesting.WellNested ∧ m = ⟨b.name, b.imports, b.withCaptures, b.nextSite⟩ := by
  unfold publish at h
  split at h
  next herrors =>
    cases h
    exact ⟨Nesting.wellNested_of_errors herrors, rfl⟩
  next => cases h

-- Publishing adds captured names to the parameters of functions and changes nothing else.
theorem getElem?_withCaptures (b : Builder) (f : FunctionId) :
    b.withCaptures[f.index]? =
      (b.functions[f.index]?).map fun x => x.withCaptured (b.nesting.captures f) := by
  simp only [withCaptures, numbered, List.getElem?_map, List.getElem?_zipIdx, Option.map_map]
  cases b.functions[f.index]? with
  | none => rfl
  | some x =>
    simp only [Option.map_some, Function.comp_apply, Nat.zero_add]
    rfl

end Builder

theorem Function.Does.withCaptured {f : Function} {ns : List Name} {m : Mark} (h : f.Does ns m)
    (extra : List Name) :
    ∃ ns', (f.withCaptured extra).Does ns' m ∧ ∀ n, n ∈ ns' ↔ n ∈ ns ∨ n ∈ extra := by
  obtain ⟨b, inner, hb, hd, rfl⟩ := h
  refine ⟨_, ⟨b, inner, hb, hd, rfl⟩, fun n => ?_⟩
  simp only [Function.withCaptured, Function.params, List.mem_append]
  tauto

/-- **Capture is lexical.** Publishing gives a closure as parameters those of its free names that
are visible where it is made: each once, in order of first occurrence, and each in scope there
once the function around it has its own captured parameters. -/
theorem captures_lexical {b : Builder} {names : Interner} {m : Module}
    (h : b.finish names = .ok m) {c : FunctionId} {x : Function}
    (hx : b.functions[c.index]? = some x) (hc : x.kind = .closure) :
    ∃ added, m.function? c = some (x.withCaptured added) ∧
      (∀ n, n ∈ added ↔ FreeIn b.functions c n ∧ VisibleAround b.functions c n) ∧
      added.Nodup ∧
      (∃ ws, FreeWalk b.functions c ws ∧ added.Sublist ws.eraseDups) ∧
      ∃ g y ns sp, m.function? g = some y ∧ y.Does ns (.closure c sp) ∧ ∀ n ∈ added, n ∈ ns := by
  obtain ⟨hw, rfl⟩ := Builder.publish_eq_ok (Builder.publish_of_finish h)
  have hlt : c.index < b.functions.length := (List.getElem?_eq_some_iff.1 hx).1
  have hisClosure : b.nesting.isClosure c = true := by
    have hx' : b.nesting.function? c = some x := hx
    simp [Nesting.isClosure, hx', hc]
  obtain ⟨s, hs⟩ := hw.made c hisClosure
  obtain ⟨y, ns, hy, hd, -⟩ := Nesting.does_of_siteOf? hs
  obtain ⟨ws, hws, hsub⟩ := hw.captures_sublist hlt
  obtain ⟨ns', hd', hns'⟩ := hd.withCaptured (b.nesting.captures s.owner)
  refine ⟨b.nesting.captures c, ?_, fun n => hw.mem_captures hlt, (nodup_eraseDups ws).sublist hsub,
    ⟨ws, hws, hsub⟩, s.owner, _, ns', s.span, ?_, hd', fun n hn => (hns' n).2 ?_⟩
  · exact (b.getElem?_withCaptures c).trans (by rw [hx, Option.map_some])
  · exact (b.getElem?_withCaptures s.owner).trans (by rw [hy, Option.map_some])
  · exact hw.captures_in_scope ⟨y, s.span, hy, hd⟩ hn

namespace Capturing

/-- A closure in a closure, which reads a parameter and a binding of the outermost function. -/
def builder : Builder where
  name := ⟨1⟩
  functions :=
    [ { name := ⟨2⟩, visibility := .anyUnit, kind := .topLevel, span := .dummy, userParams := [⟨5⟩]
        body := some (.mk [.bind .constant ⟨6⟩ (.literal .null .dummy) .dummy,
          .expr (.closure ⟨1⟩ .dummy) .dummy] .dummy) },
      { name := ⟨3⟩, visibility := .ownUnit, kind := .closure, span := .dummy
        body := some (.mk [.ret (some (.closure ⟨2⟩ .dummy)) .dummy] .dummy) },
      { name := ⟨4⟩, visibility := .ownUnit, kind := .closure, span := .dummy, userParams := [⟨7⟩]
        body := some (.mk [.expr (.reference ⟨6⟩ .dummy) .dummy,
          .expr (.reference ⟨7⟩ .dummy) .dummy, .ret (some (.reference ⟨5⟩ .dummy)) .dummy]
          .dummy) } ]

def unit : Module := ⟨builder.name, builder.imports, builder.withCaptures, builder.nextSite⟩

end Capturing

open Capturing in
-- The inner closure captures both, in the order in which it reads them.
theorem captures_lexical_nested :
    ∃ (x : Function) (added : List Name), unit.function? ⟨2⟩ = some (x.withCaptured added) ∧
      added = [⟨6⟩, ⟨5⟩] ∧ ∀ n, n ∈ added ↔
        FreeIn builder.functions ⟨2⟩ n ∧ VisibleAround builder.functions ⟨2⟩ n := by
  have hfinish : builder.finish .initial = .ok unit := rfl
  obtain ⟨added, hadded, hmem, -⟩ := captures_lexical hfinish (c := ⟨2⟩) rfl rfl
  refine ⟨_, added, hadded, ?_, hmem⟩
  have hparams : (some added : Option (List Name)) = some [⟨6⟩, ⟨5⟩] :=
    (congrArg (Option.map Function.syntheticParams) hadded).symm
  exact Option.some.inj hparams

end LateBind

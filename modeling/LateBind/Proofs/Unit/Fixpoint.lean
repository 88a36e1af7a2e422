import LateBind.Proofs.Unit.Renumbering
import LateBind.Proofs.Unit.WellFormed

/-!
# Captures settle at once

Once a closure has its captured names as parameters they are bound in it, so they are no longer free
there, and no name becomes free or visible that was not before. So functions that were published can
be declared and published again, and nothing more is captured.
-/

namespace LateBind

/-- The functions `gs` are `fs` with the names `caps` captured, but for call sites. -/
def Captured (caps : FunctionId → List Name) (fs gs : List Function) : Prop :=
  ∀ i : FunctionId, (gs[i.index]?).map Function.renumbered =
    (fs[i.index]?).map fun x => (x.withCaptured (caps i)).renumbered

/-! ## 1. What a function does that captures -/

theorem Function.Does.of_withCaptured {f : Function} {extra ns : List Name} {a : Mark}
    (h : (f.withCaptured extra).Does ns a) :
    ∃ ms, f.Does ms a ∧ ∀ n, n ∈ ns ↔ n ∈ ms ∨ n ∈ extra := by
  obtain ⟨b, inner, hb, hd, rfl⟩ := h
  refine ⟨_, ⟨b, inner, hb, hd, rfl⟩, fun n => ?_⟩
  simp only [Function.withCaptured, Function.params, List.mem_append]
  tauto

theorem Function.made_renumbered (f : Function) : f.renumbered.made = f.made := by
  have hclosure : ∀ qs : List Place, (qs.map Place.unnumbered).filterMap (·.mark.closure?) =
      qs.filterMap (·.mark.closure?) := by
    intro qs
    rw [List.filterMap_map]
    refine List.filterMap_congr fun q _ => ?_
    obtain ⟨ns, a⟩ := q
    cases a <;> rfl
  rw [made_eq_walk, made_eq_walk, ← hclosure, walk_renumbered, hclosure]

/-- What capturing leaves as it is. -/
structure Function.SameHead (f g : Function) : Prop where
  name : f.name = g.name
  kind : f.kind = g.kind
  userParams : f.userParams = g.userParams
  varargs : f.varargs = g.varargs
  target : f.target = g.target
  complete : f.body.isSome = g.body.isSome

theorem Function.sameHead {f g : Function} {extra : List Name}
    (h : f.renumbered = (g.withCaptured extra).renumbered) : f.SameHead g where
  name := (congrArg Function.name h :)
  kind := (congrArg Function.kind h :)
  userParams := (congrArg Function.userParams h :)
  varargs := (congrArg Function.varargs h :)
  target := (congrArg Function.target h :)
  complete := by
    have hbody : (f.body.map (·.renumbered)).isSome = (g.body.map (·.renumbered)).isSome :=
      (congrArg (fun f => f.body.isSome) h :)
    rwa [Option.isSome_map, Option.isSome_map] at hbody

section Captured

variable {caps : FunctionId → List Name} {fs gs : List Function}

namespace Captured

theorem exists_before (h : Captured caps fs gs) {i : FunctionId} {y : Function}
    (hy : gs[i.index]? = some y) :
    ∃ x, fs[i.index]? = some x ∧ y.renumbered = (x.withCaptured (caps i)).renumbered := by
  have hi := h i
  rw [hy, Option.map_some] at hi
  obtain ⟨x, hx, heq⟩ := Option.map_eq_some_iff.1 hi.symm
  exact ⟨x, hx, heq.symm⟩

theorem exists_after (h : Captured caps fs gs) {i : FunctionId} {x : Function}
    (hx : fs[i.index]? = some x) :
    ∃ y, gs[i.index]? = some y ∧ y.renumbered = (x.withCaptured (caps i)).renumbered := by
  have hi := h i
  rw [hx, Option.map_some] at hi
  exact Option.map_eq_some_iff.1 hi

-- What a function does it did before, where it had not bound what it captures.
theorem does_before (h : Captured caps fs gs) {i : FunctionId} {y : Function} {ns : List Name}
    {a : Mark} (hy : gs[i.index]? = some y) (hd : y.Does ns a) :
    ∃ x ms a', fs[i.index]? = some x ∧ x.Does ms a' ∧ a'.unnumbered = a.unnumbered ∧
      ∀ n, n ∈ ns ↔ n ∈ ms ∨ n ∈ caps i := by
  obtain ⟨x, hx, hxy⟩ := h.exists_before hy
  obtain ⟨a', hd', ha⟩ := hd.of_renumbered hxy
  obtain ⟨ms, hd', hms⟩ := hd'.of_withCaptured
  exact ⟨x, ms, a', hx, hd', ha, hms⟩

theorem madeIn_before (h : Captured caps fs gs) {c f : FunctionId} {ns : List Name}
    (hmade : MadeIn gs c f ns) :
    ∃ ms, MadeIn fs c f ms ∧ ∀ n, n ∈ ns ↔ n ∈ ms ∨ n ∈ caps f := by
  obtain ⟨y, sp, hy, hd⟩ := hmade
  obtain ⟨x, ms, a, hx, hd', ha, hms⟩ := h.does_before hy hd
  exact ⟨ms, ⟨x, sp, hx, Mark.unnumbered_eq_closure ha ▸ hd'⟩, hms⟩

/-- What is free in a function that captures was free before, and is not captured. -/
theorem freeIn_before (h : Captured caps fs gs) {f : FunctionId} {n : Name} (hn : FreeIn gs f n) :
    FreeIn fs f n ∧ n ∉ caps f := by
  induction hn with
  | used hy hd hname hbound =>
    obtain ⟨x, ms, a, hx, hd', ha, hms⟩ := h.does_before hy hd
    rw [hms, not_or] at hbound
    refine ⟨.used hx hd' ?_ hbound.1, hbound.2⟩
    rw [← a.usedName?_unnumbered, ha, Mark.usedName?_unnumbered, hname]
  | inner hy hd _ hbound ih =>
    obtain ⟨x, ms, a, hx, hd', ha, hms⟩ := h.does_before hy hd
    rw [hms, not_or] at hbound
    exact ⟨.inner hx (Mark.unnumbered_eq_closure ha ▸ hd') ih.1 hbound.1, hbound.2⟩

-- What is visible in a function that captures was visible before, if only such names are captured
-- as are visible around.
theorem visible_before (h : Captured caps fs gs)
    (haround : ∀ f, ∀ n ∈ caps f, VisibleAround fs f n) {f : FunctionId} {ns ms : List Name}
    {n : Name} (hms : ∀ n, n ∈ ns ↔ n ∈ ms ∨ n ∈ caps f) (hn : Visible gs f ns n) :
    Visible fs f ms n := by
  induction hn generalizing ms with
  | here hn =>
    rcases (hms _).1 hn with hn | hn
    · exact .here hn
    · exact visible_iff.2 (.inr (haround _ _ hn))
  | around hmade _ ih =>
    obtain ⟨ks, hmade', hks⟩ := h.madeIn_before hmade
    exact .around hmade' (ih hks)

theorem visibleAround_before (h : Captured caps fs gs)
    (haround : ∀ f, ∀ n ∈ caps f, VisibleAround fs f n) {c : FunctionId} {n : Name}
    (hn : VisibleAround gs c n) : VisibleAround fs c n := by
  obtain ⟨g, ns, hmade, hvisible⟩ := hn
  obtain ⟨ms, hmade', hms⟩ := h.madeIn_before hmade
  exact ⟨g, ms, hmade', h.visible_before haround hms hvisible⟩

/-! ## 2. Nothing more to capture -/

theorem map_made (h : Captured caps fs gs) : gs.map (·.made) = fs.map (·.made) := by
  refine List.ext_getElem? fun i => ?_
  have hi := congrArg (Option.map Function.made) (h ⟨i⟩)
  simp only [Option.map_map, Function.comp_def, Function.made_renumbered] at hi
  rw [List.getElem?_map, List.getElem?_map]
  exact hi

theorem makes_iff (h : Captured caps fs gs) {p c : FunctionId} : Makes gs p c ↔ Makes fs p c := by
  have hmade : ∀ fs : List Function,
      Makes fs p c ↔ ∃ cs, (fs.map (·.made))[p.index]? = some cs ∧ c ∈ cs := by
    intro fs
    simp only [List.getElem?_map, Option.map_eq_some_iff]
    constructor
    · rintro ⟨x, hx, hc⟩
      exact ⟨x.made, ⟨x, hx, rfl⟩, hc⟩
    · rintro ⟨_, ⟨x, hx, rfl⟩, hc⟩
      exact ⟨x, hx, hc⟩
  rw [hmade, hmade, h.map_made]

/-- Functions that capture are still well formed. -/
theorem wellFormed (h : Captured caps fs gs) (hw : WellFormed fs) : WellFormed gs := by
  have hkind : ∀ {c : FunctionId} {y : Function}, gs[c.index]? = some y → y.kind = .closure →
      ∃ x, fs[c.index]? = some x ∧ x.kind = .closure := by
    intro c y hy hc
    obtain ⟨x, hx, hxy⟩ := h.exists_before hy
    exact ⟨x, hx, (Function.sameHead hxy).kind ▸ hc⟩
  have hmem : ∀ y ∈ gs, ∃ x ∈ fs, y.SameHead x := by
    intro y hy
    obtain ⟨i, hi⟩ := List.mem_iff_getElem?.1 hy
    obtain ⟨x, hx, hxy⟩ := h.exists_before (i := ⟨i⟩) hi
    exact ⟨x, List.mem_of_getElem? hx, Function.sameHead hxy⟩
  have hrooted : ∀ c, Rooted fs c → Rooted gs c := by
    intro c hc
    induction hc with
    | root hx hroot =>
      obtain ⟨y, hy, hxy⟩ := h.exists_after hx
      exact .root hy ((Function.sameHead hxy).kind ▸ hroot)
    | inner hmakes _ ih => exact .inner (h.makes_iff.2 hmakes) ih
  refine ⟨fun p c hc => ?_, fun y hy => ?_, fun y hy hvarargs => ?_, fun c y hy hc => ?_,
    fun c y hy hc => ?_, fun i j y z hy hz hmakers hname hkind htarget harity => ?_⟩
  · obtain ⟨x, hx, hclosure⟩ := hw.closure p c (h.makes_iff.1 hc)
    obtain ⟨y, hy, hxy⟩ := h.exists_after hx
    exact ⟨y, hy, (Function.sameHead hxy).kind ▸ hclosure⟩
  · obtain ⟨x, hx, hxy⟩ := hmem y hy
    exact hxy.complete.trans (hw.body x hx)
  · obtain ⟨x, hx, hxy⟩ := hmem y hy
    exact hxy.userParams ▸ hw.varargs x hx (hxy.varargs ▸ hvarargs)
  · obtain ⟨x, hx, hclosure⟩ := hkind hy hc
    rw [List.flatMap_def, h.map_made, ← List.flatMap_def]
    exact hw.once c x hx hclosure
  · obtain ⟨x, hx, hclosure⟩ := hkind hy hc
    exact hrooted c (hw.rooted c x hx hclosure)
  · obtain ⟨x, hx, hxy⟩ := h.exists_before hy
    obtain ⟨w, hw', hwz⟩ := h.exists_before hz
    have hyx := Function.sameHead hxy
    have hzw := Function.sameHead hwz
    have hmakers' : ∀ p, Makes fs p i ↔ Makes fs p j := fun p =>
      h.makes_iff.symm.trans ((hmakers p).trans h.makes_iff)
    refine hw.distinct i j x w hx hw' hmakers' ?_ ?_ ?_ ?_
    · rw [← hyx.name, hname, hzw.name]
    · rw [← hyx.kind, hkind, hzw.kind]
    · rw [← hyx.target, htarget, hzw.target]
    · rw [Function.userArity, ← hyx.userParams, ← Function.userArity, harity, Function.userArity,
        hzw.userParams, Function.userArity]

/-- Functions that capture what closures capture have nothing more to capture. -/
theorem captures_eq_nil (h : Captured (Nesting.ofFunctions fs).captures fs gs)
    (hw : WellFormed fs) (c : FunctionId) : (Nesting.ofFunctions gs).captures c = [] := by
  by_cases hc : (Nesting.ofFunctions gs).isClosure c = true
  · have hlt : c.index < gs.length := Nesting.declared_of_isClosure hc
    obtain ⟨x, hx, -⟩ := h.exists_before (List.getElem?_eq_getElem hlt)
    have hlt' : c.index < fs.length := (List.getElem?_eq_some_iff.1 hx).1
    have haround : ∀ f, ∀ n ∈ (Nesting.ofFunctions fs).captures f, VisibleAround fs f n := by
      intro f n hn
      have hf : (Nesting.ofFunctions fs).isClosure f = true := by
        by_contra hf
        rw [Nesting.captures_eq_nil hf] at hn
        exact absurd hn List.not_mem_nil
      exact ((hw.wellNested.mem_captures (Nesting.declared_of_isClosure hf)).1 hn).2
    refine List.eq_nil_iff_forall_not_mem.2 fun n hn => ?_
    obtain ⟨hfree, hvisible⟩ := ((h.wellFormed hw).wellNested.mem_captures hlt).1 hn
    -- It was free and visible before, and so it was captured then and cannot be free now.
    obtain ⟨hfree', hcaps⟩ := h.freeIn_before hfree
    exact hcaps ((hw.wellNested.mem_captures hlt').2
      ⟨hfree', h.visibleAround_before haround hvisible⟩)
  · exact Nesting.captures_eq_nil hc

end Captured

end Captured

namespace Builder

theorem withCaptures_of_captures_eq_nil {b : Builder} (h : ∀ c, b.nesting.captures c = []) :
    b.withCaptures = b.functions := by
  have hsame : ∀ e : FunctionId × Function,
      { e.2 with syntheticParams := e.2.syntheticParams ++ b.nesting.captures e.1 } = e.2 := by
    intro e
    rw [h, List.append_nil]
  simp only [withCaptures, hsame]
  exact map_snd_numbered b.functions

/-- The functions of a published unit are published again as they are. -/
theorem exists_finish {b b' : Builder} {names : Interner} {m : Module}
    (h : b.finish names = .ok m)
    (hsame : b'.functions.map Function.renumbered = m.functions.map Function.renumbered)
    (names' : Interner) : ∃ m', b'.finish names' = .ok m' ∧ m'.functions = b'.functions := by
  obtain ⟨herrors, rfl⟩ := finish_eq_ok_iff.1 h
  have hw : WellFormed b.functions := Nesting.wellFormed_of_errors herrors
  have hcaptured : Captured b.nesting.captures b.functions b'.functions := by
    intro i
    have hi := congrArg (·[i.index]?) hsame
    simp only [List.getElem?_map, b.getElem?_withCaptures i, Option.map_map] at hi
    exact hi
  have hnil : b'.withCaptures = b'.functions :=
    withCaptures_of_captures_eq_nil (hcaptured.captures_eq_nil hw)
  exact ⟨_, finish_eq_ok_iff.2 ⟨(hcaptured.wellFormed hw).errors_eq_nil, rfl⟩, hnil⟩

end Builder

/-! ## 3. Declaring functions again -/

/-- The function as it is when it was just declared. -/
def Function.blank (f : Function) : Function where
  name := f.name
  visibility := f.visibility
  kind := f.kind
  span := f.span

/-- What fills a function in that was just declared. -/
def Function.edits (f : Function) : List Edit :=
  [.parameters f.userParams] ++ f.syntheticParams.map .syntheticParameter ++
    [.varargs f.varargs, .synthetic f.synthetic] ++ f.target.toList.map .target ++
    f.body.toList.map .body

/-- The commands that fill functions in, the first of which has number `k`. -/
def fillIn (k : Nat) : List Function → List Command
  | [] => []
  | f :: rest => f.edits.map (.edit ⟨k⟩) ++ fillIn (k + 1) rest

/-- The commands that declare functions and then fill them in. -/
def redeclare (fs : List Function) : List Command :=
  fs.map (fun f => .declare f.name f.visibility f.kind f.span) ++ fillIn 0 fs

theorem Function.foldl_edits (f : Function) : f.edits.foldl Function.edit f.blank = f := by
  have hsynthetic : ∀ (names : List Name) (g : Function),
      (names.map Edit.syntheticParameter).foldl Function.edit g =
        { g with syntheticParams := g.syntheticParams ++ names } := by
    intro names
    induction names with
    | nil =>
      intro g
      simp
    | cons n rest ih =>
      intro g
      rw [List.map_cons, List.foldl_cons, ih]
      simp [Function.edit]
  simp only [edits, List.foldl_append, hsynthetic]
  obtain ⟨name, visibility, kind, span, userParams, syntheticParams, varargs, synthetic, target,
    body⟩ := f
  cases target <;> cases body <;> rfl

theorem Function.renumbered_edit {f g : Function} (h : f.renumbered = g.renumbered) (e : Edit)
    (b : Builder) : (f.edit (b.prepare e).1).renumbered = (g.edit e).renumbered := by
  cases e with
  | body block =>
    have hblock : some (block.number b.nextSite).1.renumbered = some block.renumbered :=
      congrArg some (block.renumbered_number b.nextSite)
    have hrest := congrArg (fun f => { f with body := some block.renumbered }) h
    exact (congrArg (fun body => { f with body }) hblock).trans hrest
  | parameters names =>
    exact (congrArg (fun f => { f with userParams := f.userParams ++ names }) h :)
  | syntheticParameter name =>
    exact (congrArg (fun f => { f with syntheticParams := f.syntheticParams ++ [name] }) h :)
  | varargs on => exact (congrArg (fun f => { f with varargs := on }) h :)
  | synthetic on => exact (congrArg (fun f => { f with synthetic := on }) h :)
  | target type => exact (congrArg (fun f => { f with target := some type }) h :)

namespace Builder

theorem performAll_append (b : Builder) (cs ds : List Command) :
    b.performAll (cs ++ ds) = (b.performAll cs).performAll ds :=
  List.foldl_append

theorem functions_prepare (b : Builder) (e : Edit) : (b.prepare e).2.functions = b.functions := by
  cases e <;> rfl

theorem functions_edit {b : Builder} {id : FunctionId} {f : Function}
    (hf : b.functions[id.index]? = some f) (e : Edit) :
    (b.perform (.edit id e)).2.functions =
      b.functions.set id.index (f.edit (b.prepare e).1) := by
  have hf' : (b.prepare e).2.function? id = some f := by
    rw [function?, functions_prepare]
    exact hf
  simp only [perform, edit?, hf', functions_prepare, Option.map_some]

-- Edits of one function come to its edits one after another, but for call sites.
theorem functions_edits (es : List Edit) (id : FunctionId) {b : Builder} {f g : Function}
    (hf : b.functions[id.index]? = some f) (h : f.renumbered = g.renumbered) :
    ∃ f', (b.performAll (es.map (.edit id))).functions = b.functions.set id.index f' ∧
      f'.renumbered = (es.foldl Function.edit g).renumbered := by
  induction es generalizing b f g with
  | nil =>
    obtain ⟨hlt, rfl⟩ := List.getElem?_eq_some_iff.1 hf
    exact ⟨_, (List.set_getElem_self hlt).symm, h⟩
  | cons e rest ih =>
    have hfunctions := functions_edit hf e
    have hlt : id.index < b.functions.length := (List.getElem?_eq_some_iff.1 hf).1
    obtain ⟨f', hf', hsame⟩ := ih (b := (b.perform (.edit id e)).2)
      (by rw [hfunctions, List.getElem?_set_self hlt]) (Function.renumbered_edit h e b)
    refine ⟨f', ?_, hsame⟩
    rw [hfunctions, List.set_set] at hf'
    exact hf'

theorem functions_fillIn (fs before : List Function) {b : Builder}
    (hb : b.functions = before ++ fs.map Function.blank) :
    ∃ gs, (b.performAll (fillIn before.length fs)).functions = before ++ gs ∧
      gs.map Function.renumbered = fs.map Function.renumbered := by
  induction fs generalizing b before with
  | nil => exact ⟨[], hb, rfl⟩
  | cons f rest ih =>
    have hget : b.functions[before.length]? = some f.blank := by
      rw [hb, List.getElem?_append_right (Nat.le_refl _), Nat.sub_self]
      rfl
    obtain ⟨f', hf', hsame⟩ := functions_edits f.edits ⟨before.length⟩ hget rfl
    rw [f.foldl_edits] at hsame
    have hfilled : (b.performAll (f.edits.map (.edit ⟨before.length⟩))).functions =
        (before ++ [f']) ++ rest.map Function.blank := by
      rw [hf', hb, List.set_append_right _ _ (Nat.le_refl _), Nat.sub_self, List.append_assoc]
      rfl
    obtain ⟨gs, hgs, hrest⟩ := ih (before ++ [f']) hfilled
    rw [List.length_append, List.length_singleton] at hgs
    refine ⟨f' :: gs, ?_, ?_⟩
    · rw [fillIn, performAll_append, hgs, List.append_assoc]
      rfl
    · rw [List.map_cons, List.map_cons, hsame, hrest]

theorem functions_declare (fs : List Function) (b : Builder) :
    (b.performAll (fs.map fun f => .declare f.name f.visibility f.kind f.span)).functions =
      b.functions ++ fs.map Function.blank := by
  induction fs generalizing b with
  | nil => exact (List.append_nil _).symm
  | cons f rest ih =>
    refine (ih (b.declare f.name f.visibility f.kind f.span)).trans ?_
    rw [List.map_cons, List.append_cons]
    rfl

theorem functions_redeclare (unit : Name) (fs : List Function) :
    ((ofName unit).performAll (redeclare fs)).functions.map Function.renumbered =
      fs.map Function.renumbered := by
  obtain ⟨gs, hgs, hsame⟩ := functions_fillIn fs [] (functions_declare fs (ofName unit))
  rw [redeclare, performAll_append]
  exact (congrArg (List.map Function.renumbered) hgs).trans hsame

end Builder

/-- **Captures settle at once.** The functions of a published unit can be published again: a builder
that holds them publishes them as they are. So does one that declares them again, with the captured
names among their parameters; only their calls get new numbers. -/
theorem captures_settled {b : Builder} {names : Interner} {m : Module}
    (h : b.finish names = .ok m) (names' : Interner) :
    (∀ b' : Builder, b'.functions = m.functions →
      ∃ m', b'.finish names' = .ok m' ∧ m'.functions = m.functions) ∧
    ∀ unit : Name, ∃ m',
      ((Builder.ofName unit).performAll (redeclare m.functions)).finish names' = .ok m' ∧
      m'.functions.map Function.renumbered = m.functions.map Function.renumbered := by
  refine ⟨fun b' hb' => ?_, fun unit => ?_⟩
  · obtain ⟨m', hm', hfunctions⟩ := Builder.exists_finish h (by rw [hb']) names'
    exact ⟨m', hm', hfunctions.trans hb'⟩
  · have hsame := Builder.functions_redeclare unit m.functions
    obtain ⟨m', hm', hfunctions⟩ := Builder.exists_finish h hsame names'
    exact ⟨m', hm', hfunctions ▸ hsame⟩

open Capturing in
-- Both closures have what the inner one reads, and neither gets anything more.
theorem captures_settled_nested :
    builder.finish .initial = .ok unit ∧
      ∃ m', ((Builder.ofName ⟨8⟩).performAll (redeclare unit.functions)).finish .initial = .ok m' ∧
        m'.functions.map (·.syntheticParams) = [[], [⟨6⟩, ⟨5⟩], [⟨6⟩, ⟨5⟩]] := by
  have hfinish : builder.finish .initial = .ok unit := rfl
  obtain ⟨m', hm', hsame⟩ := (captures_settled hfinish .initial).2 ⟨8⟩
  refine ⟨hfinish, m', hm', ?_⟩
  have hparams := congrArg (List.map Function.syntheticParams) hsame
  rw [List.map_map, List.map_map] at hparams
  exact hparams

end LateBind

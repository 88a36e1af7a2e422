import LateBind.Proofs.Linking.InnermostScope

/-!
# Frames

In a unit that compiled no block binds a name twice, so no binding goes without a slot. The frame of
a function then starts with its parameters at the places a caller passes them, and has a slot for
each binding of its body after them.
-/

namespace LateBind

/-- The slot that a statement asks for at the node where it is come upon. -/
def Event.slot? : Event → Option Slot
  | .stmt (.bind kind name _ span) => some ⟨name, kind, .statement, span⟩
  | _ => none

/-- The slot that the calling convention has for parameter `j`. -/
def Function.paramSlot (f : Function) (j : Nat) (name : Name) : Slot :=
  if j < f.userArity then ⟨name, .assignable, .parameter, f.span⟩
  else ⟨name, .constant, .captured, f.span⟩

/-- `frame` is laid out for `f`, whose id is `id`. -/
structure Function.LaidOut (f : Function) (id : FunctionId) (frame : List Slot) : Prop where
  /-- The parameters come first, each at its place. -/
  params : ∀ j (hj : j < f.params.length), frame[j]? = some (f.paramSlot j f.params[j])
  /-- No two parameters have one name. -/
  distinct : f.params.Nodup
  /-- Then come the bindings of the body, nested blocks included, in source order. -/
  bindings : frame.drop f.arity = (f.events everything id).filterMap Event.slot?
  /-- Each of these is bound by a statement of `f` itself. -/
  own : ∀ x ∈ frame.drop f.arity, ∃ bs t, f.Stands bs t ∧ t.slot? = some x

/-! ## 1. Bindings that repeat nothing -/

theorem Slot.slotNamed?_of_repeat? {x : Slot} {before : List Slot} (h : x.repeat? before = none) :
    slotNamed? before x.name = none :=
  Option.map_eq_none_iff.1 h

theorem Slot.new?_of_repeat? {x : Slot} {before : List Slot} (h : x.repeat? before = none) :
    x.new? before = some x := by
  rw [new?, slotNamed?_of_repeat? h]
  rfl

theorem Standing.newSlot?_of_faults {q : Standing} (h : q.faults = []) :
    q.newSlot? = q.stmt.slot? := by
  obtain ⟨bs, s⟩ := q
  cases s with
  | bind k n v sp =>
    have hrepeat := (List.append_eq_nil_iff.1 h).2
    exact Slot.new?_of_repeat? (Option.toList_eq_nil_iff.1 hrepeat)
  | _ => rfl

theorem map_snd_boundInTurn (slots before : List Slot) :
    (boundInTurn before slots).map (·.2) = slots := by
  induction slots generalizing before with
  | nil => rfl
  | cons x rest ih => rw [boundInTurn, List.map_cons, ih]

theorem nodup_of_boundInTurn {slots before : List Slot}
    (h : ∀ e ∈ boundInTurn before slots, e.2.repeat? e.1 = none) :
    (slots.map (·.name)).Nodup ∧ ∀ x ∈ slots, ∀ y ∈ before, y.name ≠ x.name := by
  induction slots generalizing before with
  | nil => exact ⟨List.nodup_nil, fun x hx => absurd hx List.not_mem_nil⟩
  | cons x rest ih =>
    obtain ⟨hx, hrest⟩ := List.forall_mem_cons.1 h
    obtain ⟨hnodup, hbefore⟩ := ih hrest
    have hnone := List.find?_eq_none.1 (Slot.slotNamed?_of_repeat? hx)
    refine ⟨?_, List.forall_mem_cons.2 ⟨fun y hy => ?_, fun z hz y hy => ?_⟩⟩
    · rw [List.map_cons, List.nodup_cons]
      refine ⟨fun hmem => ?_, hnodup⟩
      obtain ⟨y, hy, hname⟩ := List.mem_map.1 hmem
      exact hbefore y hy x (by simp) hname.symm
    · simpa using hnone y hy
    · exact hbefore z hz y (List.mem_append_left _ hy)

namespace Function

theorem map_name_paramSlots (f : Function) : f.paramSlots.map (·.name) = f.params := by
  simp [paramSlots, params, Function.comp_def]

theorem length_paramSlots (f : Function) : f.paramSlots.length = f.arity := by
  rw [arity, ← f.map_name_paramSlots, List.length_map]

theorem getElem?_paramSlots (f : Function) (j : Nat) (hj : j < f.params.length) :
    f.paramSlots[j]? = some (f.paramSlot j f.params[j]) := by
  rw [paramSlots, paramSlot, userArity]
  by_cases huser : j < f.userParams.length
  · rw [if_pos huser, List.getElem?_append_left (by simpa using huser), List.getElem?_map]
    simp [params, huser]
  · rw [if_neg huser, List.getElem?_append_right (by simpa using huser), List.getElem?_map,
      List.length_map]
    have hlt : j - f.userParams.length < f.syntheticParams.length := by
      rw [params, List.length_append] at hj
      omega
    simp [params, List.getElem_append, huser, hlt]

theorem filterMap_slot?_standings (f : Function) (id : FunctionId) :
    f.standings.filterMap (·.stmt.slot?) = (f.events everything id).filterMap Event.slot? := by
  have hslot : Event.slot? = fun v => v.stmt?.bind Stmt.slot? := by
    funext v
    cases v with
    | stmt s => cases s <;> rfl
    | _ => rfl
  rw [hslot, ← List.filterMap_filterMap, ← f.map_stmt_standings id, List.filterMap_map]
  rfl

/-- Where nothing is wrong with the names of a function its frame leaves no binding out. -/
theorem layout_of_faults {f : Function} (h : f.faults = []) :
    f.layout = f.paramSlots ++ f.standings.filterMap (·.stmt.slot?) := by
  obtain ⟨hparams, hstandings⟩ := List.append_eq_nil_iff.1 h
  have hnew : ∀ e ∈ boundInTurn [] f.paramSlots, e.2.new? e.1 = some e.2 := fun e he =>
    Slot.new?_of_repeat? (List.filterMap_eq_nil_iff.1 hparams e he)
  have hslots : ∀ q ∈ f.standings, q.newSlot? = q.stmt.slot? := fun q hq =>
    Standing.newSlot?_of_faults (List.flatMap_eq_nil_iff.1 hstandings q hq)
  rw [layout, List.filterMap_congr hnew, List.filterMap_congr hslots]
  congr 1
  conv_rhs => rw [← map_snd_boundInTurn f.paramSlots []]
  exact congrFun List.filterMap_eq_map (boundInTurn [] f.paramSlots)

theorem laidOut_of_faults {f : Function} (id : FunctionId) (h : f.faults = []) :
    f.LaidOut id f.layout := by
  have hdrop : f.layout.drop f.arity = f.standings.filterMap (·.stmt.slot?) := by
    rw [layout_of_faults h, ← f.length_paramSlots, List.drop_left]
  refine ⟨fun j hj => ?_, ?_, ?_, fun x hx => ?_⟩
  · rw [layout_of_faults h, List.getElem?_append_left (by rw [f.length_paramSlots]; exact hj)]
    exact f.getElem?_paramSlots j hj
  · rw [← f.map_name_paramSlots]
    have hfirst : ∀ e ∈ boundInTurn [] f.paramSlots, e.2.repeat? e.1 = none :=
      List.filterMap_eq_nil_iff.1 (List.append_eq_nil_iff.1 h).1
    exact (nodup_of_boundInTurn hfirst).1
  · rw [hdrop, f.filterMap_slot?_standings id]
  · rw [hdrop] at hx
    obtain ⟨q, hq, hslot⟩ := List.mem_filterMap.1 hx
    exact ⟨q.blocks, q.stmt, Function.mem_standings.1 hq, hslot⟩

end Function

/-! ## 2. Compiled units -/

theorem Function.faults_of_nameErrors {m : Module} (hm : m.nameErrors = []) {id : FunctionId}
    {f : Function} (hf : m.function? id = some f) : f.faults = [] := by
  rw [← f.nameErrors_eq]
  exact List.filterMap_eq_nil_iff.2 fun p hp => nameError?_of_nameErrors hm (Module.mem_points hf hp)

/-- **Frames follow the calling convention.** In a unit that compiled every function has a frame,
laid out for it: its parameters at their places, captured ones last, then a slot for each binding of
its body. -/
theorem frames_laid_out {s : Session} {names : Interner} {units : List Builder} {u : CompiledUnit}
    (hu : .ok u ∈ (s.compileUnits names units).1) {id : FunctionId} {f : Function}
    (hf : u.module.function? id = some f) :
    ∃ frame, u.locals.frames[id.index]? = some frame ∧ f.LaidOut id frame := by
  obtain ⟨b, -, hcompiled⟩ := List.mem_map.1 hu
  obtain ⟨m, -, herrors, rfl⟩ := Session.exists_of_compileUnit hcompiled
  obtain ⟨hnames, -⟩ := Session.faultless_of_hasErrors herrors
  have hf' : m.functions[id.index]? = some f := hf
  refine ⟨f.layout, ?_, f.laidOut_of_faults id (Function.faults_of_nameErrors hnames hf)⟩
  rw [← f.slots_eq]
  simp [Module.locals, hf']

namespace CapturedParameter

/-- A closure captures a parameter of the function that makes it, and binds names in nested
blocks, two of them twice. -/
def commands : List Command :=
  let read (n : Name) : Expr := .reference n .dummy
  [.declare ⟨2⟩ .anyUnit .topLevel ⟨0, 1⟩, .declare ⟨3⟩ .ownUnit .closure ⟨2, 3⟩,
    .edit ⟨0⟩ (.parameters [⟨5⟩]), .edit ⟨1⟩ (.parameters [⟨8⟩]),
    .edit ⟨0⟩ (.body (.mk [.bind .constant ⟨9⟩ (.closure ⟨1⟩ .dummy) ⟨1, 2⟩] .dummy)),
    .edit ⟨1⟩ (.body (.mk
      [.bind .constant ⟨6⟩ (read ⟨5⟩) ⟨3, 4⟩,
        .ifThen (read ⟨6⟩) (.mk
          [.bind .assignable ⟨7⟩ (read ⟨6⟩) ⟨4, 5⟩,
            .block (.mk [.bind .constant ⟨6⟩ (read ⟨7⟩) ⟨5, 6⟩] .dummy) .dummy] .dummy) .dummy,
        .bind .assignable ⟨7⟩ (read ⟨8⟩) ⟨6, 7⟩] .dummy))]

def builder : Builder := (Builder.ofName ⟨1⟩).performAll commands

def session : Session := { config := {} }

def unit : CompiledUnit :=
  let m : Module := ⟨builder.name, builder.imports, builder.withCaptures, builder.nextSite⟩
  ⟨m, m.locals, m.resolutions (session.register [builder]).registry⟩

end CapturedParameter

open CapturedParameter in
theorem frames_laid_out_captured :
    .ok unit ∈ (session.compileUnits .initial [builder]).1 ∧
      ∃ f, unit.module.function? ⟨1⟩ = some f ∧ ∃ frame, unit.locals.frames[1]? = some frame ∧
        frame.take 2 = [⟨⟨8⟩, .assignable, .parameter, ⟨2, 3⟩⟩,
          ⟨⟨5⟩, .constant, .captured, ⟨2, 3⟩⟩] ∧
        frame.drop 2 = [bindingSlot .constant ⟨6⟩ ⟨3, 4⟩, bindingSlot .assignable ⟨7⟩ ⟨4, 5⟩,
          bindingSlot .constant ⟨6⟩ ⟨5, 6⟩, bindingSlot .assignable ⟨7⟩ ⟨6, 7⟩] := by
  have hu : .ok unit ∈ (session.compileUnits .initial [builder]).1 := List.mem_singleton.2 rfl
  obtain ⟨f, hf⟩ : ∃ f, unit.module.function? ⟨1⟩ = some f := ⟨_, rfl⟩
  obtain ⟨frame, hframe, hlaid⟩ := frames_laid_out hu hf
  refine ⟨hu, f, hf, frame, hframe, ?_, ?_⟩
  · cases hf
    have hfirst := hlaid.params 0 (by decide)
    have hsecond := hlaid.params 1 (by decide)
    match frame, hfirst, hsecond with
    | _ :: _ :: _, hfirst, hsecond =>
      cases hfirst
      cases hsecond
      rfl
  · cases hf
    exact hlaid.bindings

end LateBind

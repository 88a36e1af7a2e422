import LateBind.Proofs.Linking.NamesSeen
import LateBind.Proofs.Linking.UnitOrder
import LateBind.Proofs.Unit.Assembly
import LateBind.Proofs.Unit.SourceOrder
import LateBind.Proofs.Unit.WellFormed

/-!
# Compiled units are closed

In a unit that passed every check nothing is left open: every call has a resolution, every name that
is used as a binding has one, and every closure is made in one place.
-/

namespace LateBind

/-- What can be relied on in a compiled unit. -/
structure CompiledUnit.Closed (u : CompiledUnit) : Prop where
  /-- Every call is resolved. -/
  resolved : ∀ id f bs d s, u.module.function? id = some f → f.Holds bs d → d.site? = some s →
    ∃ r, u.resolutions.get? s = some r
  /-- A call that was resolved to a binding has it, with a place in the frame of its function. -/
  referenced : ∀ id f bs d s n, u.module.function? id = some f → f.Holds bs d →
    d.site? = some s → u.resolutions.get? s = some (.reference n) →
    ∃ x frame, u.locals.bindingAt? s = some x ∧ x.name = n ∧ nearest? bs n = some x ∧
      u.locals.frames[id.index]? = some frame ∧ x ∈ frame
  /-- A name that is read is bound there. -/
  read : ∀ id f bs n sp, u.module.function? id = some f → f.Holds bs (.reference n sp) →
    ∃ x, nearest? bs n = some x
  /-- A name that is assigned to is bound there, and not as a constant. -/
  assigned : ∀ id f bs n v sp, u.module.function? id = some f → f.Stands bs (.assign n v sp) →
    ∃ x, nearest? bs n = some x ∧ x.kind = .assignable
  /-- What is made as a closure is one. -/
  made : ∀ id f bs c sp, u.module.function? id = some f → f.Holds bs (.closure c sp) →
    c ∈ closuresMade u.module.allEvents ∧ ∃ g, u.module.function? c = some g ∧ g.kind = .closure
  /-- No two expressions make the same closure. -/
  madeOnce : (closuresMade u.module.allEvents).Nodup

/-! ## 1. Nodes and points of a module -/

theorem Module.marksMade_allEvents (m : Module) : marksMade m.allEvents = marksAlong m.points := by
  have hevents : marksMade m.allEvents =
      (numbered m.functions).flatMap fun e => marksAlong e.2.points := by
    rw [marksMade, allEvents, Module.events, List.filterMap_flatMap]
    exact List.flatMap_congr fun e _ => (e.2.marksAlong_points e.1).symm
  rw [hevents, marksAlong, points, List.map_flatMap, List.filter_flatMap]
  conv_rhs => rw [← map_snd_numbered m.functions, List.flatMap_map]
  rfl

theorem Module.closuresMade_allEvents (m : Module) :
    closuresMade m.allEvents = closuresAlong m.points := by
  rw [closuresMade_eq, m.marksMade_allEvents, ← closuresAlong_eq]

section Points

variable {m : Module} {id : FunctionId} {f : Function} {bs : List (List Slot)}

theorem Module.mem_points (hf : m.function? id = some f) {p : Point} (hp : p ∈ f.points) :
    p ∈ m.points :=
  List.mem_flatMap.2 ⟨f, List.mem_of_getElem? hf, hp⟩

-- The point of an expression that stands in a module.
theorem Function.Holds.module_point (hf : m.function? id = some f) {d : Expr} (h : f.Holds bs d)
    {a : Mark} (ha : d.mark? = some a) :
    ∃ p ∈ m.points, p.mark = a ∧ p.scope.Within f.slots ∧
      ∀ n, p.scope.find? n = nearest? bs n := by
  obtain ⟨p, hp, hmark, hscope⟩ := h.point ha
  exact ⟨p, Module.mem_points hf hp, hmark, f.points_within p hp, hscope.find?⟩

theorem Function.Holds.mem_marks (hf : m.function? id = some f) {d : Expr} (h : f.Holds bs d)
    {a : Mark} (ha : d.mark? = some a) : a ∈ m.marks := by
  obtain ⟨p, hp, hmark, -⟩ := h.module_point hf ha
  exact List.mem_map.2 ⟨p, hp, hmark⟩

end Points

/-! ## 2. Names -/

section Names

variable {m : Module} {id : FunctionId} {f : Function} {bs : List (List Slot)}

theorem nameError?_of_nameErrors (hm : m.nameErrors = []) {p : Point} (hp : p ∈ m.points) :
    p.nameError? = none :=
  List.filterMap_eq_nil_iff.1 hm p hp

theorem exists_nearest_of_read (hm : m.nameErrors = []) (hf : m.function? id = some f) {n : Name}
    {sp : Span} (h : f.Holds bs (.reference n sp)) : ∃ x, nearest? bs n = some x := by
  obtain ⟨p, hp, hmark, -, hscope⟩ := h.module_point hf rfl
  have hnone := nameError?_of_nameErrors hm hp
  simp only [Point.nameError?, hmark] at hnone
  split at hnone
  next hbinds =>
    rw [Scope.binds, hscope] at hbinds
    exact Option.isSome_iff_exists.1 hbinds
  next => cases hnone

theorem exists_nearest_of_assign (hm : m.nameErrors = []) (hf : m.function? id = some f) {n : Name}
    {v : Expr} {sp : Span} (h : f.Stands bs (.assign n v sp)) :
    ∃ x, nearest? bs n = some x ∧ x.kind = .assignable := by
  obtain ⟨p, hp, hmark, hscope⟩ := h.assign_point
  have hnone := nameError?_of_nameErrors hm (Module.mem_points hf hp)
  simp only [Point.nameError?, hmark, hscope.find?] at hnone
  split at hnone
  · cases hnone
  next x hx =>
    refine ⟨x, hx, ?_⟩
    split at hnone
    · cases hnone
    next hkind =>
      cases hk : x.kind with
      | constant => exact absurd hk hkind
      | assignable => rfl

end Names

/-! ## 3. Calls -/

namespace LinkContext

variable {c : LinkContext} {n : Name} {args : Nat} {w : Resolution}

-- A plain call goes to a function that fits, or to the binding of its name.
theorem resolveCall?_cases {s : CallSiteId} {r : Bool} (h : c.resolveCall? n args s r = some w) :
    (∃ e, c.registry.function? c.module c.imports n args = some e ∧ w = .direct e.toTarget) ∨
      ∃ x, c.locals.bindingAt? s = some x ∧ w = .reference n := by
  have hbound : (c.locals.bindingAt? s).map (fun _ => Resolution.reference n) = some w →
      ∃ x, c.locals.bindingAt? s = some x ∧ w = .reference n := by
    intro h
    obtain ⟨x, hx, rfl⟩ := Option.map_eq_some_iff.1 h
    exact ⟨x, hx, rfl⟩
  unfold resolveCall? at h
  split at h
  · exact .inr (hbound h)
  · rcases Option.or_eq_some_iff.1 h with h | ⟨-, h⟩
    · obtain ⟨e, he, rfl⟩ := Option.map_eq_some_iff.1 h
      exact .inl ⟨e, he, rfl⟩
    · exact .inr (hbound h)

-- A method call goes to an extension that fits, or is left to run time.
theorem resolveMethod_cases {type? : Option Name} (h : c.resolveMethod n args type? = w) :
    (∃ type e, type? = some type ∧ c.registry.extension? c.module type n args = some e ∧
      w = .direct e.toTarget) ∨ w = .dynamic := by
  unfold resolveMethod at h
  split at h
  next e he =>
    obtain ⟨type, htype, he⟩ := Option.bind_eq_some_iff.1 he
    exact .inl ⟨type, e, htype, he, h.symm⟩
  next => exact .inr h.symm

end LinkContext

section Calls

variable {b : Builder} {m : Module} {reg : Registry} {id : FunctionId} {f : Function}
  {bs : List (List Slot)} {d : Expr} {s : CallSiteId}

theorem exists_resolution (hb : b.Distinct) (hm : b.publish = .ok m)
    (hcalls : m.unresolvedCalls reg = []) (hf : m.function? id = some f) (hd : f.Holds bs d)
    (hs : d.site? = some s) : ∃ r, (m.resolutions reg).get? s = some r := by
  cases d with
  | call n args site r sp =>
    cases hs
    have hmark := hd.mem_marks hf rfl
    -- A call without a resolution would be reported.
    have hnone := List.filterMap_eq_nil_iff.1 hcalls _ hmark
    rw [Builder.get?_resolutions hb hm reg hmark]
    simp only [LinkContext.unresolved?] at hnone
    split at hnone
    next r hr => exact ⟨r, hr⟩
    next => cases hnone
  | method x n args site t sp =>
    cases hs
    exact ⟨_, Builder.get?_resolutions_method hb hm reg (hd.mem_marks hf rfl)⟩
  | _ => cases hs

theorem exists_binding (hb : b.Distinct) (hm : b.publish = .ok m) {n : Name}
    (hf : m.function? id = some f) (hd : f.Holds bs d) (hs : d.site? = some s)
    (hr : (m.resolutions reg).get? s = some (.reference n)) :
    ∃ x, m.locals.bindingAt? s = some x ∧ x.name = n ∧ nearest? bs n = some x ∧ x ∈ f.slots := by
  cases d with
  | call n' args site r sp =>
    cases hs
    obtain ⟨p, hp, hmark, hwithin, hscope⟩ := hd.module_point hf rfl
    rw [Builder.get?_resolutions hb hm reg (hd.mem_marks hf rfl)] at hr
    obtain ⟨e, -, he⟩ | ⟨x, hx, he⟩ := LinkContext.resolveCall?_cases hr
    · cases he
    cases he
    have hfind : p.scope.find? n = some x := (Builder.bindingAt?_eq hb hm hp hmark).symm.trans hx
    exact ⟨x, hx, Scope.name_of_find? hfind, (hscope n).symm.trans hfind, hwithin n x hfind⟩
  | method x n' args site t sp =>
    cases hs
    rw [Builder.get?_resolutions_method hb hm reg (hd.mem_marks hf rfl)] at hr
    obtain ⟨type, e, -, -, he⟩ | he := LinkContext.resolveMethod_cases (Option.some.inj hr) <;>
      cases he
  | _ => cases hs

end Calls

/-! ## 4. Closures -/

-- Publishing does not change which closures are made.
theorem Builder.closuresAlong_points {b : Builder} {m : Module} (h : b.publish = .ok m) :
    closuresAlong m.points = b.nesting.sites.map (·.body) := by
  have hpass := filterMap_points h (g := fun p => p.mark.closure?) (k := fun _ q => q.mark.closure?)
    (fun p s hp => by rw [hp]; rfl) fun f p q hm _ => by rw [hm]
  rw [closuresAlong, closuresAt, List.filterMap_map]
  refine hpass.trans ?_
  rw [nesting, Nesting.ofFunctions, List.map_flatMap]
  refine List.flatMap_congr fun e _ => ?_
  rw [← e.2.made_eq e.1, e.2.made_eq_walk]

theorem Nesting.WellNested.nodup_bodies {t : Nesting} (hw : t.WellNested) :
    (t.sites.map (·.body)).Nodup := by
  refine List.nodup_iff_count_le_one.2 fun c => ?_
  rw [← length_sitesOf]
  cases hs : t.sitesOf c with
  | nil => exact Nat.zero_le 1
  | cons s rest =>
    -- What is made is a closure, and a closure has one site.
    have hmem : s ∈ t.sitesOf c := hs ▸ List.mem_cons_self
    obtain ⟨hsite, hbody⟩ := List.mem_filter.1 hmem
    obtain rfl : s.body = c := eq_of_beq hbody
    obtain ⟨s', hs'⟩ := hw.made s.body (hw.isClosure s hsite)
    rw [(siteOf?_eq_some.1 hs').2] at hs
    cases hs
    exact Nat.le_refl 1

theorem Function.Holds.mem_closuresMade {m : Module} {id c : FunctionId} {f : Function}
    {bs : List (List Slot)} {sp : Span} (hf : m.function? id = some f)
    (hd : f.Holds bs (.closure c sp)) : c ∈ closuresMade m.allEvents :=
  List.mem_filterMap.2 ⟨_, Module.mem_allEvents hf hd, rfl⟩

theorem Builder.closuresMade_allEvents {b : Builder} {m : Module} (hm : b.publish = .ok m) :
    closuresMade m.allEvents = b.nesting.sites.map (·.body) :=
  m.closuresMade_allEvents.trans (closuresAlong_points hm)

theorem exists_closure {b : Builder} {m : Module} (hm : b.publish = .ok m) {c : FunctionId}
    (hc : c ∈ closuresMade m.allEvents) : ∃ g, m.function? c = some g ∧ g.kind = .closure := by
  rw [Builder.closuresMade_allEvents hm] at hc
  obtain ⟨s, hs, rfl⟩ := List.mem_map.1 hc
  obtain ⟨hw, rfl⟩ := Builder.publish_eq_ok hm
  obtain ⟨x, hx, hkind⟩ := Nesting.isClosure_iff.1 (hw.isClosure s hs)
  have hx' : b.functions[s.body.index]? = some x := hx
  refine ⟨x.withCaptured (b.nesting.captures s.body), ?_, hkind⟩
  exact (b.getElem?_withCaptures s.body).trans (by rw [hx', Option.map_some])

/-! ## 5. Compiled units -/

-- What a unit of a batch compiles to.
theorem Session.exists_of_compileUnits {s : Session} {names : Interner} {units : List Builder}
    {i : Nat} {b : Builder} {u : CompiledUnit} (hb : units[i]? = some b)
    (hu : (s.compileUnits names units).1[i]? = some (.ok u)) :
    ∃ m, b.publish = .ok m ∧ ((s.register units).queueOf names m).hasErrors = none ∧
      u = ⟨m, m.locals, m.resolutions (s.register units).registry⟩ := by
  have hget : (s.compileUnits names units).1[i]? = some ((s.register units).compileUnit names b) := by
    rw [compileUnits, List.getElem?_map, hb, Option.map_some]
  obtain ⟨m, hfinish, herrors, rfl⟩ := exists_of_compileUnit (Option.some.inj (hget.symm.trans hu))
  exact ⟨m, Builder.publish_of_finish hfinish, herrors, rfl⟩

theorem NameError.isError_report (names : Interner) (e : NameError) :
    (e.report names).isError = true := by
  cases e <;> rfl

-- Both passes report to one queue.
theorem Session.queueOf_eq (s : Session) (names : Interner) (m : Module) :
    s.queueOf names m = (Queue.ofConfig s.config).extend
      (m.nameReports names ++ m.callReports s.registry names) :=
  List.foldl_append.symm

-- Any error keeps a unit from being compiled, whatever the queue drops.
theorem Session.faultless_of_hasErrors {s : Session} {names : Interner} {m : Module}
    (h : (s.queueOf names m).hasErrors = none) :
    m.nameErrors = [] ∧ m.unresolvedCalls s.registry = [] := by
  rw [queueOf_eq, Queue.hasErrors_extend, List.forall_mem_append] at h
  obtain ⟨hnames, hcalls⟩ := h
  constructor
  · refine List.eq_nil_iff_forall_not_mem.2 fun e he => ?_
    have := hnames _ (List.mem_map_of_mem he)
    rw [e.isError_report] at this
    cases this
  · refine List.eq_nil_iff_forall_not_mem.2 fun c hc => ?_
    have := hcalls _ (List.mem_map_of_mem hc)
    cases this

/-- **A compiled unit is closed.** Whatever the session and however its reports are filtered, a unit
that compiles, and has a site for each call, has a resolution for every call at any depth, a binding
for every name that is used as one, and for every closure exactly one place that makes it. -/
theorem compiled_closed {s : Session} {names : Interner} {units : List Builder} {i : Nat}
    {b : Builder} {u : CompiledUnit} (hb : units[i]? = some b) (hdistinct : b.Distinct)
    (hu : (s.compileUnits names units).1[i]? = some (.ok u)) : u.Closed := by
  obtain ⟨m, hm, herrors, rfl⟩ := Session.exists_of_compileUnits hb hu
  obtain ⟨hnames, hcalls⟩ := Session.faultless_of_hasErrors herrors
  refine ⟨?_, ?_, ?_, ?_, ?_, ?_⟩
  · exact fun id f bs d s hf hd hs => exists_resolution hdistinct hm hcalls hf hd hs
  · intro id f bs d s n hf hd hs hr
    obtain ⟨x, hx, hname, hnearest, hslot⟩ := exists_binding hdistinct hm hf hd hs hr
    refine ⟨x, f.slots, hx, hname, hnearest, ?_, hslot⟩
    have hf' : m.functions[id.index]? = some f := hf
    simp [Module.locals, hf']
  · exact fun id f bs n sp hf hd => exists_nearest_of_read hnames hf hd
  · exact fun id f bs n v sp hf ht => exists_nearest_of_assign hnames hf ht
  · intro id f bs c sp hf hd
    have hmade := hd.mem_closuresMade hf
    exact ⟨hmade, exists_closure hm hmade⟩
  · rw [Builder.closuresMade_allEvents hm]
    exact (Builder.publish_eq_ok hm).1.nodup_bodies

namespace CallInReceiver

/-- The call of a local binding, as the receiver of a method call. -/
def inner : Expr := .call ⟨6⟩ [] ⟨0⟩ false .dummy

/-- A function binds a closure to a variable and assigns to it, in a block, what a method of the
closure's result answers. -/
def commands : List Command :=
  [.declare ⟨2⟩ .anyUnit .topLevel .dummy, .declare ⟨3⟩ .ownUnit .closure .dummy,
    .edit ⟨0⟩ (.parameters [⟨5⟩]),
    .edit ⟨1⟩ (.body (.mk [.ret (some (.reference ⟨5⟩ .dummy)) .dummy] .dummy)),
    .edit ⟨0⟩ (.body (.mk
      [.bind .assignable ⟨6⟩ (.closure ⟨1⟩ .dummy) .dummy,
        .block (.mk [.assign ⟨6⟩ (.method inner ⟨4⟩ [] ⟨0⟩ none .dummy) .dummy] .dummy) .dummy]
      .dummy))]

def builder : Builder := (Builder.ofName ⟨1⟩).performAll commands

def session : Session := { config := {} }

def unit : CompiledUnit :=
  let m : Module := ⟨builder.name, builder.imports, builder.withCaptures, builder.nextSite⟩
  ⟨m, m.locals, m.resolutions (session.register [builder]).registry⟩

end CallInReceiver

open CallInReceiver in
-- The call is resolved to the variable, which is bound where the call stands.
theorem compiled_closed_receiver :
    (session.compileUnits .initial [builder]).1[0]? = some (.ok unit) ∧
      unit.resolutions.get? ⟨0⟩ = some (.reference ⟨6⟩) ∧
      ∃ x, unit.locals.bindingAt? ⟨0⟩ = some x ∧ x.name = ⟨6⟩ := by
  have hb : [builder][0]? = some builder := rfl
  have hu : (session.compileUnits .initial [builder]).1[0]? = some (.ok unit) := rfl
  have hclosed := compiled_closed hb (Builder.distinct_performAll ⟨1⟩ commands) hu
  obtain ⟨f, hf⟩ : ∃ f, unit.module.function? ⟨0⟩ = some f := ⟨_, rfl⟩
  have hstands : f.Stands [[], [bindingSlot .assignable ⟨6⟩ .dummy], f.paramSlots]
      (.assign ⟨6⟩ (.method inner ⟨4⟩ [] ⟨1⟩ none .dummy) .dummy) := by
    cases hf
    exact ⟨_, [[], [_]], rfl, @Block.Stands.inside [_] _ [] _ _ [[]] _ List.mem_cons_self
      (@Block.Stands.here [] _ [] _), rfl⟩
  have hholds : f.Holds _ inner := ⟨_, _, hstands, List.mem_cons_self, .receiver .self⟩
  have href : unit.resolutions.get? ⟨0⟩ = some (.reference ⟨6⟩) := rfl
  obtain ⟨x, frame, hx, hname, -⟩ := hclosed.referenced ⟨0⟩ f _ inner ⟨0⟩ ⟨6⟩ hf hholds rfl href
  exact ⟨hu, href, x, hx, hname⟩

end LateBind

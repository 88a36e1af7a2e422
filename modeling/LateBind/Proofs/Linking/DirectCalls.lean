import LateBind.Proofs.Linking.Closed

/-!
# What direct calls go to

A direct call names a function by its unit and its number there. In a session that is never given
two units of one name, that is a published function which the caller may call, under the name and
with as many arguments as were written.
-/

namespace LateBind

/-! ## 1. Entries -/

namespace Registry

-- A unit registers its top-level functions.
theorem mem_functions_ofModule {m : Module} {e : Entry} :
    e ∈ (ofModule m).functions ↔ ∃ id g, m.function? id = some g ∧ g.kind = .topLevel ∧
      e = .ofFunction m.name id g := by
  have hone : ∀ (id : FunctionId) (g : Function), e ∈ (addOf {} m.name id g).functions ↔
      g.kind = .topLevel ∧ e = .ofFunction m.name id g := by
    intro id g
    unfold addOf
    cases g.kind with
    | topLevel => simp [addFunction]
    | closure => simp
    | extension => cases g.target <;> simp [addExtension]
  rw [ofModule_eq, Module.mem_flatMap_functions]
  exact exists₂_congr fun id g => and_congr_right fun _ => hone id g

-- And it registers its extensions, under the types they are attached to.
theorem mem_extensions_ofModule {m : Module} {type : Name} {e : Entry} :
    (type, e) ∈ (ofModule m).extensions ↔ ∃ id g, m.function? id = some g ∧ g.kind = .extension ∧
      g.target = some type ∧ e = .ofFunction m.name id g := by
  have hone : ∀ (id : FunctionId) (g : Function), (type, e) ∈ (addOf {} m.name id g).extensions ↔
      g.kind = .extension ∧ g.target = some type ∧ e = .ofFunction m.name id g := by
    intro id g
    unfold addOf
    cases g.kind with
    | topLevel => simp [addFunction]
    | closure => simp
    | extension => cases g.target <;> simp [addExtension, eq_comm]
  rw [ofModule_eq, Module.mem_flatMap_functions]
  exact exists₂_congr fun id g => and_congr_right fun _ => hone id g

/-! ## 2. Lookup -/

theorem bestMatch?_sound {candidates : List Entry} {args : Nat} {e : Entry}
    (h : bestMatch? candidates args = some e) : e ∈ candidates ∧ e.accepts args = true := by
  rcases Option.or_eq_some_iff.1 h with h | ⟨-, h⟩
  · have hexact : e.exact args = true := List.find?_some h
    exact ⟨List.mem_of_find?_eq_some h, (Entry.exact_eq_true_iff.1 hexact).2⟩
  · have hcollects : e.collects args = true := List.find?_some h
    exact ⟨List.mem_of_find?_eq_some h, (Entry.collects_eq_true_iff.1 hcollects).2⟩

variable {r : Registry} {unit name : Name} {args : Nat} {e : Entry}

/-- A plain call finds a function of its name in its own unit, or one that an import exports. -/
theorem function?_sound {imports : List Name} (h : r.function? unit imports name args = some e) :
    e ∈ r.functions ∧ e.name = name ∧ e.accepts args = true ∧
      (e.module = unit ∨ e.isExported = true ∧ e.module ∈ imports) := by
  obtain ⟨hmem, haccepts⟩ := bestMatch?_sound h
  obtain ⟨hmem, hname⟩ := List.mem_filter.1 hmem
  have hof : ∀ k, e ∈ r.functionsOf k → e ∈ r.functions ∧ e.module = k := fun k hk =>
    ⟨(List.mem_filter.1 hk).1, of_decide_eq_true (List.mem_filter.1 hk).2⟩
  rcases List.mem_append.1 hmem with hown | himported
  · obtain ⟨hregistered, hunit⟩ := hof unit hown
    exact ⟨hregistered, of_decide_eq_true hname, haccepts, .inl hunit⟩
  · obtain ⟨himported, hexported⟩ := List.mem_filter.1 himported
    obtain ⟨k, hk, hk'⟩ := List.mem_flatMap.1 himported
    obtain ⟨hregistered, rfl⟩ := hof k hk'
    exact ⟨hregistered, of_decide_eq_true hname, haccepts,
      .inr ⟨hexported, (List.mem_filter.1 hk).1⟩⟩

/-- A method call finds an extension of its name on the type of the receiver. -/
theorem extension?_sound {type : Name} (h : r.extension? unit type name args = some e) :
    (type, e) ∈ r.extensions ∧ e.name = name ∧ e.accepts (args + 1) = true ∧
      e.visibleFrom unit = true := by
  obtain ⟨hmem, haccepts⟩ := bestMatch?_sound h
  obtain ⟨⟨t, e'⟩, hoffered, rfl⟩ := List.mem_map.1 hmem
  obtain ⟨hregistered, htest⟩ := List.mem_filter.1 hoffered
  simp only [Bool.and_eq_true, decide_eq_true_eq] at htest
  obtain ⟨⟨rfl, hname⟩, hvisible⟩ := htest
  exact ⟨hregistered, hname, haccepts, hvisible⟩

end Registry

/-! ## 3. Sessions -/

/-- The session after some batches, each compiled with the names known then. -/
def Session.after (config : QueueConfig) (past : List (Interner × List Builder)) : Session :=
  past.foldl (fun s p => (s.compileUnits p.1 p.2).2) { config }

theorem Session.published_append (us vs : List Builder) :
    published (us ++ vs) = published us ++ published vs :=
  List.filterMap_append

-- What is registered is what was published, batch by batch.
theorem Session.registry_after (config : QueueConfig) (past : List (Interner × List Builder)) :
    (after config past).registry =
      (published (past.flatMap (·.2))).foldl Registry.addModule {} := by
  have hfoldl : ∀ s : Session, (past.foldl (fun s p => (s.compileUnits p.1 p.2).2) s).registry =
      (published (past.flatMap (·.2))).foldl Registry.addModule s.registry := by
    induction past with
    | nil => exact fun _ => rfl
    | cons p rest ih =>
      intro s
      rw [List.foldl_cons, ih, List.flatMap_cons, published_append, List.foldl_append]
      rfl
  exact hfoldl { config }

theorem Session.registry_register_after (config : QueueConfig)
    (past : List (Interner × List Builder)) (units : List Builder) :
    ((after config past).register units).registry =
      (published (past.flatMap (·.2) ++ units)).foldl Registry.addModule {} := by
  rw [register, registry_after, published_append, List.foldl_append]

/-- `t` is function `g` of unit `m`, the one among `ms` that has its name, and `g` is called `n` and
takes `args` arguments. -/
structure FunctionTarget.Is (t : FunctionTarget) (ms : List Module) (m : Module) (g : Function)
    (n : Name) (args : Nat) : Prop where
  published : m ∈ ms
  unit : m.name = t.module
  unique : ∀ m' ∈ ms, m'.name = t.module → m' = m
  function : m.function? t.function = some g
  name : g.name = n
  kind : g.kind = t.kind
  varargs : g.varargs = t.varargs
  accepts : g.accepts args = true

section Entries

variable {ms : List Module} {e : Entry}

theorem Entry.target_is {m : Module} {g : Function} {n : Name} {args : Nat} {id : FunctionId}
    (hnames : (ms.map (·.name)).Nodup) (hm : m ∈ ms) (hg : m.function? id = some g)
    (he : e = .ofFunction m.name id g) (hname : e.name = n) (haccepts : e.accepts args = true) :
    e.toTarget.Is ms m g n args := by
  subst he
  exact ⟨hm, rfl, fun m' hm' h => eq_of_name_eq hnames hm' hm h, hg, hname, rfl, rfl, haccepts⟩

theorem Registry.exists_function (he : e ∈ (ms.foldl addModule {}).functions) :
    ∃ m ∈ ms, ∃ id g, m.function? id = some g ∧ g.kind = .topLevel ∧
      e = .ofFunction m.name id g := by
  rw [foldl_addModule, List.nil_append] at he
  obtain ⟨m, hm, he⟩ := List.mem_flatMap.1 he
  exact ⟨m, hm, mem_functions_ofModule.1 he⟩

theorem Registry.exists_extension {type : Name}
    (he : (type, e) ∈ (ms.foldl addModule {}).extensions) :
    ∃ m ∈ ms, ∃ id g, m.function? id = some g ∧ g.kind = .extension ∧ g.target = some type ∧
      e = .ofFunction m.name id g := by
  rw [foldl_addModule, List.nil_append] at he
  obtain ⟨m, hm, he⟩ := List.mem_flatMap.1 he
  exact ⟨m, hm, mem_extensions_ofModule.1 he⟩

end Entries

/-! ## 4. Direct calls -/

section Direct

variable {ms : List Module} {u : Module} {n : Name} {args : Nat} {t : FunctionTarget}

theorem plain_target (hnames : (ms.map (·.name)).Nodup) (hu : u ∈ ms) {s : CallSiteId} {r : Bool}
    (h : (u.linkContext (ms.foldl Registry.addModule {})).resolveCall? n args s r =
      some (.direct t)) :
    ∃ m g, t.Is ms m g n args ∧ g.kind = .topLevel ∧
      (m = u ∨ g.visibility = .anyUnit ∧ m.name ∈ u.imports) := by
  obtain ⟨e, he, ht⟩ | ⟨x, -, ht⟩ := LinkContext.resolveCall?_cases h <;> cases ht
  obtain ⟨hmem, hname, haccepts, hseen⟩ := Registry.function?_sound he
  obtain ⟨m, hm, id, g, hg, hkind, rfl⟩ := Registry.exists_function hmem
  refine ⟨m, g, Entry.target_is hnames hm hg rfl hname haccepts, hkind, hseen.imp ?_ ?_⟩
  · exact fun hunit => eq_of_name_eq hnames hm hu hunit
  · rintro ⟨hexported, himport⟩
    exact ⟨of_decide_eq_true (Bool.and_eq_true_iff.1 hexported).1, himport⟩

theorem method_target (hnames : (ms.map (·.name)).Nodup) (hu : u ∈ ms) {type? : Option Name}
    (h : (u.linkContext (ms.foldl Registry.addModule {})).resolveMethod n args type? =
      .direct t) :
    ∃ m g type, type? = some type ∧ t.Is ms m g n (args + 1) ∧ g.kind = .extension ∧
      g.target = some type ∧ (m = u ∨ g.visibility = .anyUnit) := by
  obtain ⟨type, e, rfl, he, ht⟩ | ht := LinkContext.resolveMethod_cases h <;> cases ht
  obtain ⟨hmem, hname, haccepts, hvisible⟩ := Registry.extension?_sound he
  obtain ⟨m, hm, id, g, hg, hkind, htarget, rfl⟩ := Registry.exists_extension hmem
  refine ⟨m, g, type, rfl, Entry.target_is hnames hm hg rfl hname haccepts, hkind, htarget, ?_⟩
  rw [Entry.visibleFrom, Bool.or_eq_true, decide_eq_true_eq, decide_eq_true_eq] at hvisible
  exact hvisible.imp_left fun hunit => eq_of_name_eq hnames hm hu hunit

end Direct

/-- **Direct calls are sound.** In a session in which all units have names of their own, the target
of a direct call of a unit that compiles, and has a site for each call, is a function of a unit
published there, which has the name that was called, the kind and the way of taking arguments that the
target says, and takes the arguments written.

* A plain call goes to a top-level function, of its own unit or exported by one that it imports.
* A method call goes to an extension of the type that was written, of its own unit or open to all;
  its receiver counts as an argument.
* No call goes to a closure.
-/
theorem direct_calls_sound {config : QueueConfig} {past : List (Interner × List Builder)}
    {names : Interner} {units : List Builder} {i : Nat} {b : Builder} {u : CompiledUnit}
    (hnames : ((past.flatMap (·.2) ++ units).map (·.name)).Nodup)
    (hb : units[i]? = some b) (hdistinct : b.Distinct)
    (hu : ((Session.after config past).compileUnits names units).1[i]? = some (.ok u)) :
    (∀ id f bs n args s r sp t, u.module.function? id = some f → f.Holds bs (.call n args s r sp) →
      u.resolutions.get? s = some (.direct t) →
      ∃ m g, t.Is (Session.published (past.flatMap (·.2) ++ units)) m g n args.length ∧
        g.kind = .topLevel ∧ (m = u.module ∨ g.visibility = .anyUnit ∧ m.name ∈ u.module.imports)) ∧
    (∀ id f bs x n args s type? sp t, u.module.function? id = some f →
      f.Holds bs (.method x n args s type? sp) → u.resolutions.get? s = some (.direct t) →
      ∃ m g type, type? = some type ∧
        t.Is (Session.published (past.flatMap (·.2) ++ units)) m g n (args.length + 1) ∧
        g.kind = .extension ∧ g.target = some type ∧ (m = u.module ∨ g.visibility = .anyUnit)) ∧
    ∀ s t, u.resolutions.get? s = some (.direct t) → t.kind ≠ .closure := by
  obtain ⟨m, hm, -, rfl⟩ := Session.exists_of_compileUnits hb hu
  have hnodup := Session.nodup_published hnames
  have hmem : m ∈ Session.published (past.flatMap (·.2) ++ units) :=
    Session.mem_published.2 ⟨b, List.mem_append_right _ (List.mem_of_getElem? hb), hm⟩
  rw [Session.registry_register_after]
  refine ⟨?_, ?_, ?_⟩
  · intro id f bs n args s r sp t hf hd ht
    rw [Builder.get?_resolutions hdistinct hm _ (hd.mem_marks hf rfl)] at ht
    exact plain_target hnodup hmem ht
  · intro id f bs x n args s type? sp t hf hd ht
    rw [Builder.get?_resolutions_method hdistinct hm _ (hd.mem_marks hf rfl)] at ht
    exact method_target hnodup hmem (Option.some.inj ht)
  · intro s t ht
    -- Whatever is in the table was found at the mark of some call.
    obtain ⟨a, -, ha⟩ := List.mem_filterMap.1 (SiteTable.mem_of_get? ht)
    cases a with
    | call n args site r sp =>
      obtain ⟨w, hw, he⟩ := Option.map_eq_some_iff.1 ha
      cases he
      obtain ⟨_, g, his, hkind, -⟩ := plain_target hnodup hmem hw
      rw [← his.kind, hkind]
      decide
    | method n args site type? sp =>
      obtain ⟨-, hw⟩ := Prod.mk.inj (Option.some.inj ha)
      obtain ⟨_, g, _, -, his, hkind, -⟩ := method_target hnodup hmem hw
      rw [← his.kind, hkind]
      decide
    | _ => cases ha

namespace TwoBatches

/-- A unit that exports a function and an extension, both of one parameter. -/
def library : Builder := (Builder.ofName ⟨1⟩).performAll
  [.declare ⟨2⟩ .anyUnit .topLevel .dummy, .declare ⟨4⟩ .anyUnit .extension .dummy,
    .edit ⟨0⟩ (.parameters [⟨5⟩]), .edit ⟨0⟩ (.body (.mk [] .dummy)),
    .edit ⟨1⟩ (.parameters [⟨5⟩]), .edit ⟨1⟩ (.target ⟨6⟩), .edit ⟨1⟩ (.body (.mk [] .dummy))]

/-- The call of the function, as the receiver of a call of the extension. -/
def plain : Expr := .call ⟨2⟩ [.literal .null .dummy] ⟨0⟩ false .dummy

def commands : List Command :=
  [.addImport ⟨1⟩, .declare ⟨7⟩ .ownUnit .topLevel .dummy,
    .edit ⟨0⟩ (.body (.mk [.expr (.method plain ⟨4⟩ [] ⟨0⟩ (some ⟨6⟩) .dummy) .dummy] .dummy))]

/-- A unit of a later batch, which makes both calls. -/
def caller : Builder := (Builder.ofName ⟨3⟩).performAll commands

def past : List (Interner × List Builder) := [(.initial, [library])]

def unit : CompiledUnit :=
  let m : Module := ⟨caller.name, caller.imports, caller.withCaptures, caller.nextSite⟩
  ⟨m, m.locals, m.resolutions ((Session.after {} past).register [caller]).registry⟩

end TwoBatches

open TwoBatches in
-- Both calls go to the library.
theorem direct_calls_sound_imported :
    ((Session.after {} past).compileUnits .initial [caller]).1[0]? = some (.ok unit) ∧
      (∃ m g, (⟨⟨1⟩, ⟨0⟩, .topLevel, false⟩ : FunctionTarget).Is
        (Session.published [library, caller]) m g ⟨2⟩ 1 ∧ g.visibility = .anyUnit) ∧
      ∃ m g, (⟨⟨1⟩, ⟨1⟩, .extension, false⟩ : FunctionTarget).Is
        (Session.published [library, caller]) m g ⟨4⟩ 1 ∧ g.target = some ⟨6⟩ := by
  have hnames : ((past.flatMap (·.2) ++ [caller]).map (·.name)).Nodup := by decide
  have hb : [caller][0]? = some caller := rfl
  have hdistinct : caller.Distinct := Builder.distinct_performAll ⟨3⟩ commands
  have hu : ((Session.after {} past).compileUnits .initial [caller]).1[0]? = some (.ok unit) := rfl
  obtain ⟨f, hf⟩ : ∃ f, unit.module.function? ⟨0⟩ = some f := ⟨_, rfl⟩
  have hstands : f.Stands [[], f.paramSlots]
      (.expr (.method plain ⟨4⟩ [] ⟨1⟩ (some ⟨6⟩) .dummy) .dummy) := by
    cases hf
    exact .only rfl
  have hmethod : f.Holds _ (.method plain ⟨4⟩ [] ⟨1⟩ (some ⟨6⟩) .dummy) :=
    ⟨_, _, hstands, List.mem_cons_self, .self⟩
  have hplain : f.Holds _ plain := ⟨_, _, hstands, List.mem_cons_self, .receiver .self⟩
  obtain ⟨hcalls, hmethods, -⟩ := direct_calls_sound hnames hb hdistinct hu
  refine ⟨hu, ?_, ?_⟩
  · obtain ⟨m, g, his, -, hseen⟩ := hcalls ⟨0⟩ f _ ⟨2⟩ _ ⟨0⟩ false .dummy _ hf hplain rfl
    refine ⟨m, g, his, hseen.elim (fun hown => ?_) And.left⟩
    exact absurd (his.unit.symm.trans (congrArg Module.name hown)) (by decide)
  · obtain ⟨m, g, type, htype, his, -, htarget, -⟩ :=
      hmethods ⟨0⟩ f _ plain ⟨4⟩ [] ⟨1⟩ _ .dummy _ hf hmethod rfl
    cases htype
    exact ⟨m, g, his, htarget⟩

end LateBind

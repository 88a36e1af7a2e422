import LateBind.Proofs.Linking.Closed

/-!
# Calls with and without a resolution

Resolving a published unit divides its calls in two: those that the table has an entry for, and those
that are reported, each once and at its own place. Which it is, and what the entry says, depends on
the call itself and on what is bound where it stands, not on the calls around it.
-/

namespace LateBind

/-! ## 1. The calls of a module -/

/-- The expression of a node, if it is a call. -/
def Event.call? : Event → Option Expr
  | .expr e => if e.site?.isSome then some e else none
  | _ => none

/-- The calls of a module, plain calls and method calls, in source order. -/
def Module.calls (m : Module) : List Expr := m.allEvents.filterMap Event.call?

namespace Module

variable {m : Module} {d : Expr}

theorem mem_calls : d ∈ m.calls ↔
    d.site?.isSome = true ∧ ∃ id f bs, m.function? id = some f ∧ f.Holds bs d := by
  rw [calls, List.mem_filterMap, ← mem_allEvents_iff]
  constructor
  · rintro ⟨v, hv, hd⟩
    cases v with
    | expr e =>
      obtain ⟨hsite, he⟩ := Option.ite_none_right_eq_some.1 hd
      cases he
      exact ⟨hsite, hv⟩
    | _ => cases hd
  · rintro ⟨hsite, hd⟩
    exact ⟨_, hd, if_pos hsite⟩

-- A call inside a call is a call of the module like any other.
theorem mem_calls_of_has {e : Expr} (hd : d ∈ m.calls) (he : d.Has e)
    (hsite : e.site?.isSome = true) : e ∈ m.calls := by
  obtain ⟨-, id, f, bs, hf, t, a, ht, ha, had⟩ := mem_calls.1 hd
  exact mem_calls.2 ⟨hsite, id, f, bs, hf, t, a, ht, ha, had.trans he⟩

-- A pass that asks of the marks only about calls is a pass over the calls.
theorem filterMap_calls {α : Type} {g : Mark → Option α} (hg : ∀ a, a.site? = none → g a = none) :
    m.calls.filterMap (fun d => d.mark?.bind g) = m.marks.filterMap g := by
  have hcalls : m.calls.filterMap (fun d => d.mark?.bind g) = (marksMade m.allEvents).filterMap g := by
    rw [calls, marksMade, List.filterMap_filterMap, List.filterMap_filterMap]
    refine List.filterMap_congr fun v _ => ?_
    cases v with
    | expr e =>
      cases e with
      | reference n s => exact (hg (.read n s) rfl).symm
      | closure c s => exact (hg (.closure c s) rfl).symm
      | _ => rfl
    | _ => rfl
  rw [hcalls, marksMade_allEvents, marksAlong, List.filterMap_filter]
  refine List.filterMap_congr fun a _ => ?_
  cases ha : a.ofStatement with
  | false => rfl
  | true =>
    have hsite : a.site? = none := by cases a <;> first | rfl | cases ha
    rw [hg a hsite]
    rfl

theorem filterMap_site?_calls : m.calls.filterMap Expr.site? = m.marks.filterMap Mark.site? := by
  rw [← filterMap_calls fun a ha => ha]
  refine List.filterMap_congr fun d _ => ?_
  cases d <;> rfl

end Module

/-! ## 2. What the table says -/

section Table

variable {b : Builder} {m : Module} {reg : Registry} {id : FunctionId} {f : Function}
  {bs : List (List Slot)} {n : Name} {args : List Expr} {s : CallSiteId} {sp : Span}

-- Whether the name of a call is bound is told by the blocks that the call stands in.
theorem bindingAt?_eq_nearest? (hb : b.Distinct) (hm : b.publish = .ok m)
    (hf : m.function? id = some f) {r : Bool} (hd : f.Holds bs (.call n args s r sp)) :
    m.locals.bindingAt? s = nearest? bs n := by
  obtain ⟨p, hp, hmark, -, hscope⟩ := hd.module_point hf rfl
  rw [Builder.bindingAt?_eq hb hm hp hmark, hscope]

-- A call marked as one of a binding has an entry only if there is the binding.
theorem get?_onReference (hb : b.Distinct) (hm : b.publish = .ok m) (hf : m.function? id = some f)
    (hd : f.Holds bs (.call n args s true sp)) :
    (m.resolutions reg).get? s = (nearest? bs n).map fun _ => .reference n := by
  rw [Builder.get?_resolutions hb hm reg (hd.mem_marks hf rfl),
    ← bindingAt?_eq_nearest? hb hm hf hd]
  rfl

-- Any other plain call goes to a function before it goes to a binding.
theorem get?_plain (hb : b.Distinct) (hm : b.publish = .ok m) (hf : m.function? id = some f)
    (hd : f.Holds bs (.call n args s false sp)) :
    (m.resolutions reg).get? s =
      ((reg.function? m.name m.imports n args.length).map fun e => .direct e.toTarget).or
        ((nearest? bs n).map fun _ => .reference n) := by
  rw [Builder.get?_resolutions hb hm reg (hd.mem_marks hf rfl),
    ← bindingAt?_eq_nearest? hb hm hf hd]
  rfl

theorem get?_method (hb : b.Distinct) (hm : b.publish = .ok m) (hf : m.function? id = some f)
    {x : Expr} {type? : Option Name} (hd : f.Holds bs (.method x n args s type? sp)) :
    (m.resolutions reg).get? s = some
      (match type?.bind fun type => reg.extension? m.name type n args.length with
        | some e => .direct e.toTarget
        | none => .dynamic) :=
  Builder.get?_resolutions_method hb hm reg (hd.mem_marks hf rfl)

-- Every entry is about a call.
theorem exists_call_of_get? {r : Resolution} (h : (m.resolutions reg).get? s = some r) :
    ∃ d ∈ m.calls, d.site? = some s := by
  obtain ⟨a, ha, hfinding⟩ := List.mem_filterMap.1 (SiteTable.mem_of_get? h)
  have hsite : s ∈ m.marks.filterMap Mark.site? := by
    refine List.mem_filterMap.2 ⟨a, ha, ?_⟩
    cases a with
    | call n args t r sp =>
      obtain ⟨w, -, he⟩ := Option.map_eq_some_iff.1 hfinding
      cases he
      rfl
    | method n args t type sp =>
      cases hfinding
      rfl
    | _ => cases hfinding
  rw [← Module.filterMap_site?_calls] at hsite
  exact List.mem_filterMap.1 hsite

end Table

/-! ## 3. What is reported -/

/-- `e` reports that call `d` has no resolution. It has one label, at the range of the call. -/
structure Expr.ReportedAs (names : Interner) (d : Expr) (e : Diagnostic) : Prop where
  labelled : e.labels = [⟨d.span, "not found in this scope", true⟩]
  described : ∃ n args s r sp, d = .call n args s r sp ∧
    e = UnresolvedCall.report names ⟨n, args.length, sp⟩

/-- The report that a call deserves by what the table says. -/
def Expr.report? (names : Interner) (t : Resolutions) (d : Expr) : Option Diagnostic :=
  (d.mark?.bind (Mark.unresolved? t)).map (·.report names)

theorem Expr.reportedAs_of_report? {names : Interner} {t : Resolutions} {d : Expr} {e : Diagnostic}
    (h : d.report? names t = some e) : d.ReportedAs names e := by
  obtain ⟨u, hu, rfl⟩ := Option.map_eq_some_iff.1 h
  obtain ⟨a, ha, hu⟩ := Option.bind_eq_some_iff.1 hu
  cases d with
  | call n args s r sp =>
    cases ha
    obtain ⟨-, he⟩ := Option.ite_none_right_eq_some.1 hu
    cases he
    exact ⟨rfl, n, args, s, r, sp, rfl, rfl⟩
  | reference | closure | method =>
    cases ha
    cases hu
  | _ => cases ha

-- Keeping what has a value and taking the values goes element by element.
theorem forall₂_filter_filterMap {α β : Type} {R : α → β → Prop} {p : α → Bool}
    {g : α → Option β} {l : List α} (hp : ∀ a ∈ l, p a = (g a).isSome)
    (hR : ∀ a v, g a = some v → R a v) : List.Forall₂ R (l.filter p) (l.filterMap g) := by
  induction l with
  | nil => exact .nil
  | cons a rest ih =>
    obtain ⟨ha, hrest⟩ := List.forall_mem_cons.1 hp
    cases hg : g a with
    | none =>
      rw [List.filter_cons_of_neg (by simp [ha, hg]), List.filterMap_cons_none hg]
      exact ih hrest
    | some v =>
      rw [List.filter_cons_of_pos (by simp [ha, hg]), List.filterMap_cons_some hg]
      exact .cons (hR a v hg) (ih hrest)

section Reports

variable {b : Builder} {m : Module} {reg : Registry} {names : Interner}

-- A method call always has an entry, so a call without one is plain, and is reported.
theorem isNone_entry (hb : b.Distinct) (hm : b.publish = .ok m) {d : Expr} (hd : d ∈ m.calls) :
    (d.site?.bind (m.resolutions reg).get?).isNone =
      (d.report? names (m.resolutions reg)).isSome := by
  obtain ⟨hsite, id, f, bs, hf, hd⟩ := Module.mem_calls.1 hd
  cases d with
  | call n args s r sp =>
    rw [Expr.report?, Option.isSome_map]
    simp only [Expr.site?, Expr.mark?, Option.bind_some, Mark.unresolved?]
    cases (m.resolutions reg).get? s <;> rfl
  | method x n args s type? sp =>
    simp only [Expr.site?, Option.bind_some, get?_method hb hm hf hd]
    rfl
  | _ => cases hsite

-- Checking the names reports nothing of this kind.
theorem NameError.code_report_ne (names : Interner) (e : NameError) :
    (e.report names).code ≠ .unresolvedCall := by
  cases e <;> exact Code.noConfusion

theorem unresolved_reports (hb : b.Distinct) (hm : b.publish = .ok m) :
    ((m.nameReports names ++ m.callReports reg names).filter (·.code = .unresolvedCall)) =
      m.calls.filterMap (Expr.report? names (m.resolutions reg)) := by
  have hnames : (m.nameReports names).filter (·.code = .unresolvedCall) = [] := by
    refine List.filter_eq_nil_iff.2 fun d hd => ?_
    obtain ⟨e, -, rfl⟩ := List.mem_map.1 hd
    rw [decide_eq_true_eq]
    exact e.code_report_ne names
  have hcalls : (m.callReports reg names).filter (·.code = .unresolvedCall) =
      m.callReports reg names := by
    refine List.filter_eq_self.2 fun d hd => ?_
    obtain ⟨u, -, rfl⟩ := List.mem_map.1 hd
    rfl
  have hmarks := Module.filterMap_calls (m := m) (g := Mark.unresolved? (m.resolutions reg))
    fun a ha => by cases a <;> first | rfl | cases ha
  rw [List.filter_append, hnames, hcalls, List.nil_append, Module.callReports,
    Builder.unresolvedCalls_eq hb hm, ← hmarks, List.map_filterMap]
  rfl

end Reports

/-! ## 4. The division -/

/-- What resolving does with the calls of a module: some have an entry in `t`, and `reports` are
about the others. -/
structure Module.CallsDivided (m : Module) (names : Interner) (t : Resolutions)
    (reports : List Diagnostic) : Prop where
  /-- The calls are those that stand in some function, at any depth. -/
  all : ∀ d, d ∈ m.calls ↔
    d.site?.isSome = true ∧ ∃ id f bs, m.function? id = some f ∧ f.Holds bs d
  /-- Those inside another call are among them, whatever becomes of the other. -/
  nested : ∀ d ∈ m.calls, ∀ e, d.Has e → e.site?.isSome = true → e ∈ m.calls
  /-- No two of them have the same site. -/
  distinct : (m.calls.filterMap Expr.site?).Nodup
  /-- Every entry is about one of them. -/
  entered : ∀ s r, t.get? s = some r → ∃ d ∈ m.calls, d.site? = some s
  /-- Those without an entry are reported one by one, and there is no other report. -/
  reported : List.Forall₂ (Expr.ReportedAs names)
    (m.calls.filter fun d => (d.site?.bind t.get?).isNone) reports

/-- How the calls of a module are resolved against a registry, by where each of them stands. -/
structure Module.CallsResolved (m : Module) (reg : Registry) (t : Resolutions) : Prop where
  /-- A call of a binding goes to the binding, whatever functions there are. -/
  ofBinding : ∀ id f bs n args s sp, m.function? id = some f → f.Holds bs (.call n args s true sp) →
    ∀ r, t.get? s = some r ↔ r = .reference n ∧ ∃ x, nearest? bs n = some x
  /-- Another plain call goes to a function if one fits, whatever is bound, and to a binding
  otherwise. -/
  plain : ∀ id f bs n args s sp, m.function? id = some f → f.Holds bs (.call n args s false sp) →
    ∀ r, t.get? s = some r ↔
      (∃ e, reg.function? m.name m.imports n args.length = some e ∧ r = .direct e.toTarget) ∨
      (reg.function? m.name m.imports n args.length = none ∧ r = .reference n ∧
        ∃ x, nearest? bs n = some x)
  /-- A method call goes to an extension of the receiver's type if that is known and has one that
  fits, and is left to run time otherwise. -/
  method : ∀ id f bs x n args s type? sp, m.function? id = some f →
    f.Holds bs (.method x n args s type? sp) →
    ∀ r, t.get? s = some r ↔
      (∃ type e, type? = some type ∧ reg.extension? m.name type n args.length = some e ∧
        r = .direct e.toTarget) ∨
      ((∀ type, type? = some type → reg.extension? m.name type n args.length = none) ∧ r = .dynamic)

section Division

variable {b : Builder} {m : Module} {reg : Registry} {names : Interner}

theorem callsDivided (hb : b.Distinct) (hm : b.publish = .ok m) :
    m.CallsDivided names (m.resolutions reg)
      ((m.nameReports names ++ m.callReports reg names).filter (·.code = .unresolvedCall)) := by
  refine ⟨fun d => Module.mem_calls, fun d hd e he hsite => Module.mem_calls_of_has hd he hsite,
    ?_, fun s r h => exists_call_of_get? h, ?_⟩
  · rw [Module.filterMap_site?_calls]
    exact Builder.nodup_sites hb hm
  · rw [unresolved_reports hb hm]
    exact forall₂_filter_filterMap (fun d hd => isNone_entry hb hm hd)
      fun d e he => Expr.reportedAs_of_report? he

theorem map_reference_eq_some {α : Type} {x? : Option α} {n : Name} {r : Resolution} :
    (x?.map fun _ => .reference n) = some r ↔ r = .reference n ∧ ∃ x, x? = some x := by
  rw [Option.map_eq_some_iff, exists_and_right, and_comm, eq_comm]

theorem callsResolved (hb : b.Distinct) (hm : b.publish = .ok m) :
    m.CallsResolved reg (m.resolutions reg) := by
  refine ⟨?_, ?_, ?_⟩
  · intro id f bs n args s sp hf hd r
    rw [get?_onReference hb hm hf hd, map_reference_eq_some]
  · intro id f bs n args s sp hf hd r
    rw [get?_plain hb hm hf hd]
    cases reg.function? m.name m.imports n args.length with
    | some e => simp [eq_comm]
    | none => simpa using map_reference_eq_some
  · intro id f bs x n args s type? sp hf hd r
    rw [get?_method hb hm hf hd]
    cases type? with
    | none => simp [eq_comm]
    | some type =>
      cases he : reg.extension? m.name type n args.length with
      | some e => simp [he, eq_comm]
      | none => simp [he, eq_comm]

end Division

/-- **Resolution divides the calls.** Whatever the registry, resolving a published unit that has a site
for each call gives every call an entry in the table or reports it, once and at its own range, and does
nothing else; and which it is, and what the entry says, depends on the call, on the functions
registered and on what is bound where the call stands. -/
theorem resolution_divides {b : Builder} {names' : Interner} {m : Module} (hb : b.Distinct)
    (h : b.finish names' = .ok m) (reg : Registry) (names : Interner) :
    m.CallsDivided names (m.resolutions reg)
      ((({ config := .unlimited, registry := reg } : Session).queueOf names m).contents.filter
        (·.code = .unresolvedCall)) ∧
    m.CallsResolved reg (m.resolutions reg) := by
  have hm := Builder.publish_of_finish h
  rw [Session.queueOf_eq, Queue.contents_extend_unlimited]
  exact ⟨callsDivided hb hm, callsResolved hb hm⟩

namespace CallsInsideCall

/-- The range of the call that nothing answers to. -/
def outer : Span := ⟨10, 30⟩

/-- A function calls something unknown on the result of calling its parameter, and on what a method
of the parameter answers. -/
def commands : List Command :=
  [.declare ⟨2⟩ .anyUnit .topLevel .dummy, .edit ⟨0⟩ (.parameters [⟨5⟩]),
    .edit ⟨0⟩ (.body (.mk
      [.expr (.call ⟨9⟩
        [.call ⟨5⟩ [] ⟨0⟩ true .dummy, .method (.reference ⟨5⟩ .dummy) ⟨8⟩ [] ⟨0⟩ none .dummy]
        ⟨0⟩ false outer) .dummy] .dummy))]

def builder : Builder := (Builder.ofName ⟨1⟩).performAll commands

def unit : Module := ⟨builder.name, builder.imports, builder.withCaptures, builder.nextSite⟩

end CallsInsideCall

open CallsInsideCall in
-- The call outside is reported; those inside are resolved all the same.
theorem resolution_divides_inside :
    (unit.resolutions {}).get? ⟨0⟩ = some (.reference ⟨5⟩) ∧
      (unit.resolutions {}).get? ⟨1⟩ = some .dynamic ∧ (unit.resolutions {}).get? ⟨2⟩ = none ∧
      ∃ e, (({ config := .unlimited } : Session).queueOf .initial unit).contents.filter
          (·.code = .unresolvedCall) = [e] ∧
        e.labels = [⟨outer, "not found in this scope", true⟩] := by
  have hfinish : builder.finish .initial = .ok unit := rfl
  obtain ⟨hdivided, hresolved⟩ :=
    resolution_divides (Builder.distinct_performAll ⟨1⟩ commands) hfinish {} .initial
  obtain ⟨f, hf⟩ : ∃ f, unit.function? ⟨0⟩ = some f := ⟨_, rfl⟩
  have hstands : f.Stands [[], f.paramSlots] (.expr (.call ⟨9⟩
      [.call ⟨5⟩ [] ⟨0⟩ true .dummy, .method (.reference ⟨5⟩ .dummy) ⟨8⟩ [] ⟨1⟩ none .dummy]
      ⟨2⟩ false outer) .dummy) := by
    cases hf
    exact .only rfl
  have hfirst : f.Holds _ (.call ⟨5⟩ [] ⟨0⟩ true .dummy) :=
    ⟨_, _, hstands, List.mem_cons_self, .argument List.mem_cons_self .self⟩
  have hsecond : f.Holds _ (.method (.reference ⟨5⟩ .dummy) ⟨8⟩ [] ⟨1⟩ none .dummy) :=
    ⟨_, _, hstands, List.mem_cons_self,
      .argument (List.mem_cons_of_mem _ List.mem_cons_self) .self⟩
  have hbound : ∃ x, nearest? [[], f.paramSlots] ⟨5⟩ = some x := by
    cases hf
    exact ⟨_, rfl⟩
  -- The one call without an entry is the one outside.
  have hothers : (unit.calls.filter fun d => (d.site?.bind (unit.resolutions {}).get?).isNone) =
      [.call ⟨9⟩
        [.call ⟨5⟩ [] ⟨0⟩ true .dummy, .method (.reference ⟨5⟩ .dummy) ⟨8⟩ [] ⟨1⟩ none .dummy]
        ⟨2⟩ false outer] := rfl
  have hreported := hdivided.reported
  rw [hothers] at hreported
  obtain ⟨e, rest, he, hrest, hreports⟩ := List.forall₂_cons_left_iff.1 hreported
  cases hrest
  exact ⟨(hresolved.ofBinding _ f _ _ _ _ _ hf hfirst _).2 ⟨rfl, hbound⟩,
    (hresolved.method _ f _ _ _ _ _ _ _ hf hsecond _).2 (.inr ⟨nofun, rfl⟩), rfl, e, hreports,
    he.labelled⟩

end LateBind

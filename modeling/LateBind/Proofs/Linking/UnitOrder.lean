import LateBind.Session
import LateBind.Proofs.Unit.Captures
import Mathlib.Data.List.Nodup

/-!
# The order of the units of a batch

What a unit is compiled to depends on the order of the batch in one way only: a method call on a
known type goes to the first extension that fits, and two units of the batch may both offer one.
Units whose calls have no such rivals are compiled alike in every order.
-/

namespace LateBind

/-! ## 1. What a unit adds to the registry -/

namespace Registry

/-- What a unit alone registers. -/
def ofModule (m : Module) : Registry := addModule {} m

theorem addOf_eq (r : Registry) (unit : Name) (id : FunctionId) (f : Function) :
    r.addOf unit id f =
      ⟨r.functions ++ (addOf {} unit id f).functions,
        r.extensions ++ (addOf {} unit id f).extensions⟩ := by
  unfold addOf
  cases f.kind with
  | topLevel => simp [addFunction]
  | closure => simp
  | extension => cases f.target <;> simp [addExtension]

theorem foldl_addOf (unit : Name) (es : List (FunctionId × Function)) (r : Registry) :
    es.foldl (fun r e => r.addOf unit e.1 e.2) r =
      ⟨r.functions ++ es.flatMap fun e => (addOf {} unit e.1 e.2).functions,
        r.extensions ++ es.flatMap fun e => (addOf {} unit e.1 e.2).extensions⟩ := by
  induction es generalizing r with
  | nil => simp
  | cons e rest ih =>
    rw [List.foldl_cons, ih, addOf_eq]
    simp only [List.flatMap_cons, List.append_assoc]

theorem ofModule_eq (m : Module) :
    ofModule m =
      ⟨(numbered m.functions).flatMap fun e => (addOf {} m.name e.1 e.2).functions,
        (numbered m.functions).flatMap fun e => (addOf {} m.name e.1 e.2).extensions⟩ :=
  foldl_addOf m.name (numbered m.functions) {}

theorem addModule_eq (r : Registry) (m : Module) :
    r.addModule m =
      ⟨r.functions ++ (ofModule m).functions, r.extensions ++ (ofModule m).extensions⟩ := by
  rw [ofModule_eq]
  exact foldl_addOf m.name (numbered m.functions) r

theorem foldl_addModule (ms : List Module) (r : Registry) :
    ms.foldl addModule r =
      ⟨r.functions ++ ms.flatMap fun m => (ofModule m).functions,
        r.extensions ++ ms.flatMap fun m => (ofModule m).extensions⟩ := by
  induction ms generalizing r with
  | nil => simp
  | cons m rest ih =>
    rw [List.foldl_cons, ih, addModule_eq]
    simp only [List.flatMap_cons, List.append_assoc]

theorem module_addOf (unit : Name) (id : FunctionId) (f : Function) :
    (∀ e ∈ (addOf {} unit id f).functions, e.module = unit) ∧
      ∀ e ∈ (addOf {} unit id f).extensions, e.2.module = unit := by
  unfold addOf
  cases f.kind with
  | topLevel => simp [addFunction, Entry.ofFunction]
  | closure => simp
  | extension => cases f.target <;> simp [addExtension, Entry.ofFunction]

-- A unit registers functions of its own.
theorem module_ofModule (m : Module) :
    (∀ e ∈ (ofModule m).functions, e.module = m.name) ∧
      ∀ e ∈ (ofModule m).extensions, e.2.module = m.name := by
  rw [ofModule_eq]
  constructor
  · intro e he
    obtain ⟨p, -, hp⟩ := List.mem_flatMap.1 he
    exact (module_addOf m.name p.1 p.2).1 e hp
  · intro e he
    obtain ⟨p, -, hp⟩ := List.mem_flatMap.1 he
    exact (module_addOf m.name p.1 p.2).2 e hp

-- What a method call can mean once units are registered.
theorem methods_foldl (ms : List Module) (r : Registry) (unit type name : Name) :
    (ms.foldl addModule r).methods unit type name =
      r.methods unit type name ++ ms.flatMap fun m => (ofModule m).methods unit type name := by
  rw [foldl_addModule]
  simp only [methods, List.filter_append, List.map_append, List.filter_flatMap, List.map_flatMap]

theorem functionsOf_foldl_flatMap (ms : List Module) (r : Registry) (unit : Name) :
    (ms.foldl addModule r).functionsOf unit =
      r.functionsOf unit ++ ms.flatMap fun m => (ofModule m).functionsOf unit := by
  rw [foldl_addModule]
  simp only [functionsOf, List.filter_append, List.filter_flatMap]

-- The functions of one unit are those that it has registered itself.
theorem functionsOf_foldl (ms : List Module) (r : Registry) (unit : Name) :
    (ms.foldl addModule r).functionsOf unit =
      r.functionsOf unit ++
        (ms.filter (·.name = unit)).flatMap fun m => (ofModule m).functions := by
  rw [functionsOf_foldl_flatMap]
  congr 1
  induction ms with
  | nil => rfl
  | cons m rest ih =>
    have hmodule := (module_ofModule m).1
    rw [List.flatMap_cons, ih, List.filter_cons]
    by_cases hm : m.name = unit
    · have hall : (ofModule m).functionsOf unit = (ofModule m).functions :=
        List.filter_eq_self.2 fun e he => decide_eq_true ((hmodule e he).trans hm)
      simp [hm, hall]
    · have hnone : (ofModule m).functionsOf unit = [] :=
        List.filter_eq_nil_iff.2 fun e he h =>
          hm ((hmodule e he).symm.trans (of_decide_eq_true h))
      simp [hm, hnone]

end Registry

/-! ## 2. Plain calls -/

theorem eq_of_perm_of_length_le_one {α : Type} {l l' : List α} (h : l.Perm l')
    (hl : l.length ≤ 1) : l = l' := by
  match l with
  | [] => exact h.nil_eq
  | [a] => exact (List.singleton_perm.1 h).symm ▸ rfl
  | _ :: _ :: _ => simp at hl

section Perm

variable {ms ms' : List Module} (hperm : ms'.Perm ms) (hnames : (ms.map (·.name)).Nodup)

include hnames in
theorem eq_of_name_eq {m m' : Module} (hm : m ∈ ms) (hm' : m' ∈ ms) (h : m.name = m'.name) :
    m = m' :=
  List.inj_on_of_nodup_map hnames hm hm' h

include hperm hnames in
/-- Plain calls do not depend on the order of the units. -/
theorem Registry.function?_perm (r : Registry) :
    (ms'.foldl addModule r).function? = (ms.foldl addModule r).function? := by
  have hfunctions : ∀ unit, (ms'.foldl addModule r).functionsOf unit =
      (ms.foldl addModule r).functionsOf unit := by
    intro unit
    rw [functionsOf_foldl, functionsOf_foldl]
    -- One unit at most has the name, so there is nothing to order.
    have hlength : (ms.filter (·.name = unit)).length ≤ 1 := by
      match hf : ms.filter (·.name = unit) with
      | [] | [_] => simp [hf]
      | m :: m' :: rest =>
        have hmem : ∀ k ∈ ms.filter (·.name = unit), k.name = unit := fun k hk =>
          of_decide_eq_true (List.mem_filter.1 hk).2
        have hsub := (List.filter_sublist (l := ms) (p := (·.name = unit))).map (·.name)
        have hnodup := hnames.sublist hsub
        rw [hf] at hnodup hmem
        have heq : m.name = m'.name := (hmem m (by simp)).trans (hmem m' (by simp)).symm
        simp [heq] at hnodup
    rw [eq_of_perm_of_length_le_one (hperm.symm.filter _) hlength]
  funext unit imports name args
  unfold function? candidates
  rw [hfunctions, funext hfunctions]

end Perm

/-! ## 3. Method calls -/

namespace Entry

/-- Has exactly so many parameters, none of which collects the rest. -/
def exact (args : Nat) (e : Entry) : Bool := !e.varargs && e.userArity == args

/-- Takes so many arguments by collecting the rest. -/
def collects (args : Nat) (e : Entry) : Bool := e.varargs && e.accepts args

theorem exact_eq_true_iff {e : Entry} {args : Nat} :
    e.exact args = true ↔ e.varargs = false ∧ e.accepts args = true := by
  rw [exact, Bool.and_eq_true, Bool.not_eq_true']
  refine and_congr_right fun h => ?_
  rw [accepts, signatureAccepts, h, if_neg Bool.false_ne_true, beq_iff_eq, beq_iff_eq]
  exact eq_comm

theorem collects_eq_true_iff {e : Entry} {args : Nat} :
    e.collects args = true ↔ e.varargs = true ∧ e.accepts args = true :=
  Bool.and_eq_true_iff

-- Whoever accepts a call fits it exactly or collects.
theorem accepts_eq (e : Entry) (args : Nat) : e.accepts args = (e.exact args || e.collects args) := by
  rw [Bool.eq_iff_iff, Bool.or_eq_true, exact_eq_true_iff, collects_eq_true_iff]
  cases e.varargs <;> simp

end Entry

/-- Two of the units `ms` offer a method that passes the test `p`. -/
def Contested (ms : List Module) (unit type name : Name) (p : Entry → Bool) : Prop :=
  ∃ m ∈ ms, ∃ m' ∈ ms, m.name ≠ m'.name ∧
    (∃ e ∈ (Registry.ofModule m).methods unit type name, p e = true) ∧
      ∃ e ∈ (Registry.ofModule m').methods unit type name, p e = true

/-- For a method call in `unit`, only their order decides between two of the units `ms`: the best
that is offered, by `ms` or by what `r` holds already, is offered by both and not by `r`. -/
inductive Rivals (r : Registry) (ms : List Module) (unit type name : Name) (args : Nat) : Prop where
  | exact : (∀ e ∈ r.methods unit type name, e.exact (args + 1) = false) →
      Contested ms unit type name (Entry.exact (args + 1)) → Rivals r ms unit type name args
  | collects :
      (∀ e ∈ r.methods unit type name,
        e.exact (args + 1) = false ∧ e.collects (args + 1) = false) →
      (∀ m ∈ ms, ∀ e ∈ (Registry.ofModule m).methods unit type name,
        e.exact (args + 1) = false) →
      Contested ms unit type name (Entry.collects (args + 1)) → Rivals r ms unit type name args

-- Where at most one of the sources has what is looked for, their order does not matter.
theorem find?_flatMap_perm {α β : Type} {f : α → List β} {p : β → Bool} {l l' : List α}
    (h : l.Perm l')
    (hone : ∀ a ∈ l, ∀ b ∈ l, (∃ x ∈ f a, p x = true) → (∃ x ∈ f b, p x = true) → a = b) :
    (l.flatMap f).find? p = (l'.flatMap f).find? p := by
  induction h with
  | nil => rfl
  | cons a _ ih =>
    rw [List.flatMap_cons, List.flatMap_cons, List.find?_append, List.find?_append,
      ih fun b hb c hc => hone b (List.mem_cons_of_mem _ hb) c (List.mem_cons_of_mem _ hc)]
  | swap a b l =>
    simp only [List.flatMap_cons, List.find?_append, ← Option.or_assoc]
    congr 1
    cases ha : (f a).find? p with
    | none => simp
    | some x =>
      cases hb : (f b).find? p with
      | none => simp
      | some y =>
        have hax : ∃ x ∈ f a, p x = true :=
          ⟨x, List.mem_of_find?_eq_some ha, List.find?_some ha⟩
        have hby : ∃ x ∈ f b, p x = true :=
          ⟨y, List.mem_of_find?_eq_some hb, List.find?_some hb⟩
        have hab : a = b := hone a (by simp) b (by simp) hax hby
        rw [← hab, ha] at hb
        cases hb
        rfl
  | trans h₁ _ ih₁ ih₂ =>
    exact (ih₁ hone).trans (ih₂ fun a ha b hb => hone a (h₁.mem_iff.2 ha) b (h₁.mem_iff.2 hb))

namespace Registry

variable {ms ms' : List Module} {r : Registry} {unit type name : Name} {args : Nat}

theorem extension?_foldl (ms : List Module) (r : Registry) (unit type name : Name) (args : Nat) :
    (ms.foldl addModule r).extension? unit type name args =
      (((r.methods unit type name).find? (Entry.exact (args + 1))).or
        ((ms.flatMap fun m => (ofModule m).methods unit type name).find?
          (Entry.exact (args + 1)))).or
      (((r.methods unit type name).find? (Entry.collects (args + 1))).or
        ((ms.flatMap fun m => (ofModule m).methods unit type name).find?
          (Entry.collects (args + 1)))) := by
  rw [extension?, methods_foldl, bestMatch?]
  show ((_ : List Entry).find? (Entry.exact (args + 1))).or
    ((_ : List Entry).find? (Entry.collects (args + 1))) = _
  rw [List.find?_append, List.find?_append]

theorem find?_methods_perm (hperm : ms'.Perm ms) (hnames : (ms.map (·.name)).Nodup)
    {p : Entry → Bool} (h : ¬Contested ms unit type name p) :
    (ms'.flatMap fun m => (ofModule m).methods unit type name).find? p =
      (ms.flatMap fun m => (ofModule m).methods unit type name).find? p := by
  refine (find?_flatMap_perm hperm.symm fun m hm m' hm' hp hp' => ?_).symm
  apply eq_of_name_eq hnames hm hm'
  by_contra hne
  exact h ⟨m, hm, m', hm', hne, hp, hp'⟩

/-- A method call without rivals does not depend on the order of the units. -/
theorem extension?_perm (hperm : ms'.Perm ms) (hnames : (ms.map (·.name)).Nodup)
    (h : ¬Rivals r ms unit type name args) :
    (ms'.foldl addModule r).extension? unit type name args =
      (ms.foldl addModule r).extension? unit type name args := by
  rw [extension?_foldl, extension?_foldl]
  -- In order of preference: exact before collecting, and each in `r` before the units.
  cases hold : (r.methods unit type name).find? (Entry.exact (args + 1)) with
  | some e => simp only [Option.some_or]
  | none =>
    have hnoexact : ∀ e ∈ r.methods unit type name, e.exact (args + 1) = false := fun e he => by
      simpa using List.find?_eq_none.1 hold e he
    rw [find?_methods_perm hperm hnames fun hc => h (.exact hnoexact hc)]
    cases hnew : (ms.flatMap fun m => (ofModule m).methods unit type name).find?
        (Entry.exact (args + 1)) with
    | some e => simp only [Option.none_or, Option.some_or]
    | none =>
      cases hold' : (r.methods unit type name).find? (Entry.collects (args + 1)) with
      | some e => simp only [Option.some_or]
      | none =>
        have hnocollects : ∀ e ∈ r.methods unit type name, e.collects (args + 1) = false :=
          fun e he => by simpa using List.find?_eq_none.1 hold' e he
        have hnew' : ∀ m ∈ ms, ∀ e ∈ (ofModule m).methods unit type name,
            e.exact (args + 1) = false := fun m hm e he => by
          simpa using List.find?_eq_none.1 hnew e (List.mem_flatMap.2 ⟨m, hm, he⟩)
        rw [find?_methods_perm hperm hnames fun hc =>
          h (.collects (fun e he => ⟨hnoexact e he, hnocollects e he⟩) hnew' hc)]

/-- Of two rivals the one that comes first is called. -/
theorem exists_rivals (h : Rivals r ms unit type name args) :
    ∃ m ∈ ms, ∃ m' ∈ ms, m.name ≠ m'.name ∧ ∀ k, k = m ∨ k = m' → ∀ rest, (k :: rest).Perm ms →
      ∃ e, ((k :: rest).foldl addModule r).extension? unit type name args = some e ∧
        e.module = k.name := by
  -- What is found at the front of a list of units belongs to the first of them.
  have hfront : ∀ (k : Module) (rest : List Module) (p : Entry → Bool),
      (∃ e ∈ (ofModule k).methods unit type name, p e = true) →
      ∃ e, ((k :: rest).flatMap fun m => (ofModule m).methods unit type name).find? p = some e ∧
        e.module = k.name := by
    rintro k rest p ⟨e, he, hp⟩
    obtain ⟨e', he'⟩ := Option.isSome_iff_exists.1 (List.find?_isSome.2 ⟨e, he, hp⟩)
    refine ⟨e', ?_, ?_⟩
    · rw [List.flatMap_cons, List.find?_append, he', Option.some_or]
    · obtain ⟨q, hq, rfl⟩ := List.mem_map.1 (List.mem_of_find?_eq_some he')
      exact (module_ofModule k).2 q (List.mem_filter.1 hq).1
  cases h with
  | exact hold hcontested =>
    obtain ⟨m, hm, m', hm', hne, hp, hp'⟩ := hcontested
    refine ⟨m, hm, m', hm', hne, fun k hk rest _ => ?_⟩
    obtain ⟨e, he, hmodule⟩ := hfront k rest (Entry.exact (args + 1))
      (by rcases hk with rfl | rfl <;> assumption)
    have hnone : (r.methods unit type name).find? (Entry.exact (args + 1)) = none :=
      List.find?_eq_none.2 fun e he => by simp [hold e he]
    refine ⟨e, ?_, hmodule⟩
    rw [extension?_foldl, hnone, he, Option.none_or, Option.some_or]
  | collects hold hnew hcontested =>
    obtain ⟨m, hm, m', hm', hne, hp, hp'⟩ := hcontested
    refine ⟨m, hm, m', hm', hne, fun k hk rest hperm => ?_⟩
    obtain ⟨e, he, hmodule⟩ := hfront k rest (Entry.collects (args + 1))
      (by rcases hk with rfl | rfl <;> assumption)
    have hnone : (r.methods unit type name).find? (Entry.exact (args + 1)) = none :=
      List.find?_eq_none.2 fun e he => by simp [(hold e he).1]
    have hnone' : ((k :: rest).flatMap fun m => (ofModule m).methods unit type name).find?
        (Entry.exact (args + 1)) = none := by
      refine List.find?_eq_none.2 fun e he => ?_
      obtain ⟨m, hm, he⟩ := List.mem_flatMap.1 he
      simp [hnew m (hperm.mem_iff.1 hm) e he]
    have hnone'' : (r.methods unit type name).find? (Entry.collects (args + 1)) = none :=
      List.find?_eq_none.2 fun e he => by simp [(hold e he).2]
    refine ⟨e, ?_, hmodule⟩
    simp only [extension?_foldl, hnone, hnone', hnone'', he, Option.none_or]

end Registry

/-! ## 4. Batches -/

-- Results found at the same elements make equal lists only if they are equal element by element.
theorem eq_of_filterMap_eq {α β : Type} {f g : α → Option β} {l : List α}
    (hsome : ∀ a, (f a).isSome = (g a).isSome) (h : l.filterMap f = l.filterMap g) {a : α}
    (ha : a ∈ l) : f a = g a := by
  induction l with
  | nil => exact absurd ha List.not_mem_nil
  | cons b rest ih =>
    have hb := hsome b
    rw [List.filterMap_cons, List.filterMap_cons] at h
    cases hf : f b with
    | none =>
      cases hg : g b with
      | some => rw [hf, hg] at hb; cases hb
      | none =>
        rw [hf, hg] at h
        rcases List.mem_cons.1 ha with rfl | ha
        · rw [hf, hg]
        · exact ih h ha
    | some v =>
      cases hg : g b with
      | none => rw [hf, hg] at hb; cases hb
      | some w =>
        rw [hf, hg] at h
        obtain ⟨hv, h⟩ := List.cons.inj h
        rcases List.mem_cons.1 ha with rfl | ha
        · rw [hf, hg, hv]
        · exact ih h ha

namespace Session

variable {s : Session} {names : Interner} {us us' : List Builder} {b : Builder}

theorem mem_published {m : Module} : m ∈ published us ↔ ∃ b ∈ us, b.publish = .ok m := by
  unfold published
  rw [List.mem_filterMap]
  refine exists_congr fun b => and_congr_right fun _ => ?_
  cases b.publish with
  | error => simp
  | ok m => simp

theorem nodup_published (hnames : (us.map (·.name)).Nodup) :
    ((published us).map (·.name)).Nodup := by
  have hname : (published us).map (·.name) =
      (us.filter (·.publish.isOk)).map (·.name) := by
    induction us with
    | nil => rfl
    | cons b rest ih =>
      have ih := ih (List.nodup_cons.1 hnames).2
      unfold published at ih ⊢
      rw [List.filterMap_cons, List.filter_cons]
      cases hb : b.publish with
      | error => simpa [Except.isOk, Except.toBool] using ih
      | ok m =>
        obtain ⟨-, rfl⟩ := Builder.publish_eq_ok hb
        simpa [Except.isOk, Except.toBool] using ih
  rw [hname]
  exact hnames.sublist (List.filter_sublist.map _)

-- Any of the published units may come first.
theorem exists_perm_published {k : Module} (hk : k ∈ published us) :
    ∃ us', us'.Perm us ∧ ∃ rest, published us' = k :: rest := by
  obtain ⟨b, hb, hbk⟩ := mem_published.1 hk
  obtain ⟨before, after, rfl⟩ := List.append_of_mem hb
  refine ⟨b :: (before ++ after), List.perm_middle.symm, published (before ++ after), ?_⟩
  simp only [published, List.filterMap_cons, hbk]

-- A plain call of a unit is looked for under the unit's name and imports only.
theorem unresolvedCalls_congr {r r' : Registry} {m : Module}
    (hfunctions : ∀ n args, r.function? m.name m.imports n args =
      r'.function? m.name m.imports n args) : m.unresolvedCalls r = m.unresolvedCalls r' := by
  refine List.filterMap_congr fun a _ => ?_
  cases a with
  | call n args site rf sp =>
    simp only [LinkContext.unresolved?, LinkContext.resolveCall?, Module.linkContext, hfunctions]
  | _ => rfl

-- What a unit is compiled to, by what the passes over it find.
theorem compileUnit_eq_of_lookups {s t : Session} (hconfig : s.config = t.config)
    (hfunctions : ∀ m, b.finish names = .ok m → ∀ n args,
      s.registry.function? m.name m.imports n args = t.registry.function? m.name m.imports n args)
    (hresolutions : ∀ m, b.finish names = .ok m → (s.queueOf names m).hasErrors = none →
      m.resolutions s.registry = m.resolutions t.registry) :
    s.compileUnit names b = t.compileUnit names b := by
  unfold compileUnit
  cases hb : b.finish names with
  | error reports => simp only [fail, hconfig]
  | ok m =>
    have hqueue : s.queueOf names m = t.queueOf names m := by
      simp only [queueOf, hconfig, Module.callReports, unresolvedCalls_congr (hfunctions m hb)]
    simp only [check, ← hqueue]
    cases herrors : (s.queueOf names m).hasErrors with
    | some => rfl
    | none => simp only [hresolutions m hb herrors]

theorem compileUnit_congr {s t : Session} (hconfig : s.config = t.config)
    (hfunctions : s.registry.function? = t.registry.function?)
    (hresolutions : ∀ m, b.finish names = .ok m → (s.queueOf names m).hasErrors = none →
      m.resolutions s.registry = m.resolutions t.registry) :
    s.compileUnit names b = t.compileUnit names b :=
  compileUnit_eq_of_lookups hconfig (fun _ _ _ _ => by rw [hfunctions]) hresolutions

-- A unit that compiles has passed every check.
theorem exists_of_compileUnit {u : CompiledUnit} (h : s.compileUnit names b = .ok u) :
    ∃ m, b.finish names = .ok m ∧ (s.queueOf names m).hasErrors = none ∧
      u = ⟨m, m.locals, m.resolutions s.registry⟩ := by
  unfold compileUnit at h
  split at h
  · cases h
  next m hm =>
    unfold check at h
    dsimp only at h
    split at h
    · cases h
    next herrors =>
      cases h
      exact ⟨m, hm, herrors, rfl⟩

theorem compileUnit_eq_ok {u : CompiledUnit} (h : s.compileUnit names b = .ok u) :
    b.finish names = .ok u.module ∧ (s.queueOf names u.module).hasErrors = none ∧
      u.resolutions = u.module.resolutions s.registry := by
  obtain ⟨m, hm, herrors, rfl⟩ := exists_of_compileUnit h
  exact ⟨hm, herrors, rfl⟩

theorem resolutions_eq_of_lookups {r r' : Registry} {m : Module}
    (hfunctions : ∀ n args, r.function? m.name m.imports n args =
      r'.function? m.name m.imports n args)
    (hmethods : ∀ n args site type sp, .method n args site (some type) sp ∈ m.marks →
      r.extension? m.name type n args = r'.extension? m.name type n args) :
    m.resolutions r = m.resolutions r' := by
  unfold Module.resolutions
  congr 1
  refine List.filterMap_congr fun a ha => ?_
  cases a with
  | call n args site rf sp =>
    simp only [LinkContext.finding?, LinkContext.resolveCall?, Module.linkContext, hfunctions]
  | method n args site type sp =>
    cases type with
    | none => rfl
    | some type =>
      simp only [LinkContext.finding?, LinkContext.resolveMethod, Module.linkContext,
        Option.bind_some, hmethods n args site type sp ha]
  | _ => rfl

theorem resolutions_congr {r r' : Registry} {m : Module} (hfunctions : r.function? = r'.function?)
    (hmethods : ∀ n args site type sp, .method n args site (some type) sp ∈ m.marks →
      r.extension? m.name type n args = r'.extension? m.name type n args) :
    m.resolutions r = m.resolutions r' :=
  resolutions_eq_of_lookups (fun _ _ => by rw [hfunctions]) hmethods

-- Equal tables come from equal findings about each method call.
theorem extension?_of_resolutions {r r' : Registry} {m : Module}
    (hfunctions : r.function? = r'.function?) (h : m.resolutions r = m.resolutions r') {n : Name}
    {args : Nat} {site : CallSiteId} {type : Name} {sp : Span}
    (ha : .method n args site (some type) sp ∈ m.marks) {e e' : Entry}
    (he : r.extension? m.name type n args = some e)
    (he' : r'.extension? m.name type n args = some e') : e.module = e'.module := by
  have hsome : ∀ a, ((m.linkContext r).finding? a).isSome =
      ((m.linkContext r').finding? a).isSome := by
    intro a
    cases a with
    | call n args site rf sp =>
      simp only [LinkContext.finding?, LinkContext.resolveCall?, Module.linkContext, hfunctions]
    | _ => rfl
  have hfinding := eq_of_filterMap_eq hsome (congrArg SiteTable.findings h) ha
  simp only [LinkContext.finding?, LinkContext.resolveMethod, Module.linkContext, Option.bind_some,
    he, he', Option.some.injEq, Prod.mk.injEq, true_and, Resolution.direct.injEq] at hfinding
  exact congrArg FunctionTarget.module hfinding

end Session

/-- **Only rivals make the order matter.** The units of a batch with different names are compiled
alike in every order of the batch exactly if no unit that compiles calls a method for which two
units of the batch are rivals. -/
theorem order_irrelevant_iff (s : Session) (names : Interner) (us : List Builder)
    (hnames : (us.map (·.name)).Nodup) :
    (∀ us', us'.Perm us →
      (s.compileUnits names us').1 = us'.map ((s.register us).compileUnit names)) ↔
    ∀ b ∈ us, ∀ u, (s.register us).compileUnit names b = .ok u →
      ∀ n args site type sp, .method n args site (some type) sp ∈ u.module.marks →
        ¬Rivals s.registry (Session.published us) u.module.name type n args := by
  have hnodup := Session.nodup_published hnames
  have hregistry : ∀ us', (s.register us').registry =
      (Session.published us').foldl Registry.addModule s.registry := fun _ => rfl
  have hpublished : ∀ us', us'.Perm us → (Session.published us').Perm (Session.published us) :=
    fun us' h => h.filterMap _
  have hfunctions : ∀ us', us'.Perm us → (s.register us').registry.function? =
      (s.register us).registry.function? := fun us' h =>
    Registry.function?_perm (hpublished us' h) hnodup s.registry
  constructor
  · intro hsame b hb u hu n args site type sp ha hrivals
    obtain ⟨m, hm, m', hm', hne, hfirst⟩ := Registry.exists_rivals hrivals
    -- With either rival first its method is called, and the unit is compiled as it is here.
    have hcalled : ∀ k, k = m ∨ k = m' → ∃ r : Registry,
        r.function? = (s.register us).registry.function? ∧
          u.module.resolutions r = u.resolutions ∧
            ∃ e, r.extension? u.module.name type n args = some e ∧ e.module = k.name := by
      intro k hk
      have hkmem : k ∈ Session.published us := by rcases hk with rfl | rfl <;> assumption
      obtain ⟨us', hperm, rest, hpub⟩ := Session.exists_perm_published hkmem
      have hresult := List.map_inj_left.1 (hsame us' hperm) b (hperm.mem_iff.2 hb)
      obtain ⟨-, -, hres⟩ := Session.compileUnit_eq_ok (hresult.trans hu)
      refine ⟨_, hfunctions us' hperm, hres.symm, ?_⟩
      rw [hregistry, hpub]
      exact hfirst k hk rest (hpub ▸ hpublished us' hperm)
    obtain ⟨r, hr, hres, e, he, hmodule⟩ := hcalled m (.inl rfl)
    obtain ⟨r', hr', hres', e', he', hmodule'⟩ := hcalled m' (.inr rfl)
    refine hne (hmodule.symm.trans (Eq.trans ?_ hmodule'))
    exact Session.extension?_of_resolutions (hr.trans hr'.symm) (hres.trans hres'.symm) ha he he'
  · intro hno us' hperm
    refine List.map_congr_left fun b hb => ?_
    refine (Session.compileUnit_congr (s := s.register us) (t := s.register us') rfl
      (hfunctions us' hperm).symm fun m hm herrors => ?_).symm
    refine Session.resolutions_congr (hfunctions us' hperm).symm fun n args site type sp ha => ?_
    refine (Registry.extension?_perm (hpublished us' hperm) hnodup ?_).symm
    have hcompiled : (s.register us).compileUnit names b =
        .ok ⟨m, m.locals, m.resolutions (s.register us).registry⟩ := by
      unfold Session.compileUnit Session.check
      rw [hm]
      simp only [herrors]
    exact hno b (hperm.mem_iff.1 hb) _ hcompiled n args site type sp ha

namespace Contest

/-- A unit that offers method 4 on type 6. -/
def offering (unit : Name) : Builder where
  name := unit
  functions :=
    [{ name := ⟨4⟩, visibility := .anyUnit, kind := .extension, span := .dummy, userParams := [⟨5⟩]
       target := some ⟨6⟩, body := some (.mk [] .dummy) }]

/-- A unit that calls it. -/
def calling : Builder where
  name := ⟨3⟩
  functions :=
    [{ name := ⟨7⟩, visibility := .anyUnit, kind := .topLevel, span := .dummy, userParams := [⟨8⟩]
       body := some (.mk [.ret (some (.method (.reference ⟨8⟩ .dummy) ⟨4⟩ [] ⟨0⟩ (some ⟨6⟩) .dummy))
         .dummy] .dummy) }]
  nextSite := 1

def published (b : Builder) : Module := ⟨b.name, b.imports, b.withCaptures, b.nextSite⟩

def session : Session := { config := .unlimited }

end Contest

open Contest in
-- One unit that offers the method has no rival.
theorem order_irrelevant_single :
    ([offering ⟨1⟩, calling].map (·.name)).Nodup ∧
      (session.compileUnits .initial [calling, offering ⟨1⟩]).1 =
        [calling, offering ⟨1⟩].map
          ((session.register [offering ⟨1⟩, calling]).compileUnit .initial) := by
  have hnames : ([offering ⟨1⟩, calling].map (·.name)).Nodup := by decide
  refine ⟨hnames, (order_irrelevant_iff session .initial _ hnames).2 ?_ _ (.swap _ _ _)⟩
  intro b _ u _ n args site type sp _ hrivals
  have hcontested : ∃ p,
      Contested (Session.published [offering ⟨1⟩, calling]) u.module.name type n p := by
    cases hrivals with
    | exact _ h => exact ⟨_, h⟩
    | collects _ _ h => exact ⟨_, h⟩
  obtain ⟨p, m, hm, m', hm', hne, ⟨e, he, -⟩, e', he', -⟩ := hcontested
  have hoffers : ∀ k ∈ Session.published [offering ⟨1⟩, calling],
      ∀ e ∈ (Registry.ofModule k).methods u.module.name type n, k.name = ⟨1⟩ := by
    intro k hk e he
    rcases List.mem_cons.1 (show k ∈ [published (offering ⟨1⟩), published calling] from hk) with
      rfl | hk
    · rfl
    · obtain rfl := List.mem_singleton.1 hk
      exact absurd he List.not_mem_nil
  exact hne ((hoffers m hm e he).trans (hoffers m' hm' e' he').symm)

open Contest in
/-- With two units that offer the method the one that comes first is called. -/
theorem order_matters :
    ([offering ⟨1⟩, offering ⟨2⟩, calling].map (·.name)).Nodup ∧
      (session.compileUnits .initial [offering ⟨2⟩, offering ⟨1⟩, calling]).1 ≠
        [offering ⟨2⟩, offering ⟨1⟩, calling].map
          ((session.register [offering ⟨1⟩, offering ⟨2⟩, calling]).compileUnit .initial) := by
  refine ⟨by decide, fun h => ?_⟩
  let found : Except FailedUnit CompiledUnit → List (CallSiteId × Resolution)
    | .ok u => u.resolutions.findings
    | .error _ => []
  exact absurd (congrArg (List.map found) h) (by decide)

end LateBind

import LateBind.Proofs.Linking.DirectCalls

/-!
# Settings of the reports

How many errors a session shows and whether it drops repeats is a matter of its reports alone. What
compiles, what it compiles to and what is registered for later batches does not depend on it, and a
unit that fails still says in which phase it did.
-/

namespace LateBind

/-! ## 1. Reports and their phases -/

/-- The first digit of a published code tells its phase. -/
theorem Code.text_phase (c : Code) :
    c.text.toList.take 2 = ['E', match c.phase with
      | .construction => '1'
      | .resolution => '2'
      | .internal => '9'] := by
  cases c <;> decide

theorem Diagnostic.foldl_withSecondary (d : Diagnostic) (text : String) (sites : List Span) :
    (sites.foldl (fun d site => d.withSecondary site text) d).code = d.code ∧
      (sites.foldl (fun d site => d.withSecondary site text) d).severity = d.severity := by
  induction sites generalizing d with
  | nil => exact ⟨rfl, rfl⟩
  | cons site rest ih => exact ih (d.withSecondary site text)

/-- Errors of construction are reported as such. -/
theorem ConstructionError.report_construction (names : Interner) (e : ConstructionError) :
    (e.report names).isError = true ∧ (e.report names).code.phase = .construction := by
  cases e with
  | madeRepeatedly n s sites =>
    obtain ⟨hcode, hseverity⟩ := Diagnostic.foldl_withSecondary
      (((Diagnostic.ofCode .misplacedClosure).withMessage
        ("closure `" ++ names.lookup n ++ "` is instantiated " ++ toString sites.length ++
          " times")).withLabel s "declared here") "instantiated here" sites
    rw [Diagnostic.isError, report, hcode, hseverity]
    exact ⟨rfl, rfl⟩
  | _ => exact ⟨rfl, rfl⟩

theorem NameError.phase_report (names : Interner) (e : NameError) :
    (e.report names).code.phase = .resolution := by
  cases e <;> rfl

-- Neither pass over a published unit reports anything of another phase.
theorem Module.phase_reports {m : Module} {r : Registry} {names : Interner} {d : Diagnostic}
    (hd : d ∈ m.nameReports names ++ m.callReports r names) : d.code.phase = .resolution := by
  rcases List.mem_append.1 hd with hd | hd
  · obtain ⟨e, -, rfl⟩ := List.mem_map.1 hd
    exact e.phase_report names
  · obtain ⟨c, -, rfl⟩ := List.mem_map.1 hd
    rfl

-- A unit is not refused without a reason.
theorem Builder.finish_error {b : Builder} {names : Interner} {ds : List Diagnostic}
    (h : b.finish names = .error ds) :
    (∃ d ∈ ds, d.isError = true) ∧ ∀ d ∈ ds, d.code.phase = .construction := by
  obtain ⟨hne, hperm⟩ := finish_eq_error h
  refine ⟨?_, fun d hd => ?_⟩
  · obtain ⟨e, he⟩ := List.exists_mem_of_ne_nil _ hne
    exact ⟨_, hperm.mem_iff.2 (List.mem_map_of_mem he), (e.report_construction names).1⟩
  · obtain ⟨e, -, rfl⟩ := List.mem_map.1 (hperm.mem_iff.1 hd)
    exact (e.report_construction names).2

/-! ## 2. One unit -/

/-- Two results for one unit that differ at most in how a failure is reported. -/
inductive SameOutcome : Except FailedUnit CompiledUnit → Except FailedUnit CompiledUnit → Prop where
  | compiled (u : CompiledUnit) : SameOutcome (.ok u) (.ok u)
  | failed {f g : FailedUnit} : f.name = g.name → SameOutcome (.error f) (.error g)

namespace Session

variable {s s' : Session} {names : Interner} {b : Builder} {f : FailedUnit}

theorem hasErrors_queueOf (hregistry : s.registry = s'.registry) (names : Interner) (m : Module) :
    (s.queueOf names m).hasErrors = none ↔ (s'.queueOf names m).hasErrors = none := by
  rw [queueOf_eq, queueOf_eq, Queue.hasErrors_extend, Queue.hasErrors_extend, hregistry]

-- Of all that a session holds, only the registry decides what becomes of a unit.
theorem compileUnit_sameOutcome (hregistry : s.registry = s'.registry) :
    SameOutcome (s.compileUnit names b) (s'.compileUnit names b) := by
  unfold compileUnit
  cases b.finish names with
  | error ds => exact .failed rfl
  | ok m =>
    have hiff := hasErrors_queueOf hregistry names m
    simp only [check]
    cases hs : (s.queueOf names m).hasErrors with
    | none =>
      rw [hiff.1 hs, hregistry]
      exact .compiled _
    | some g =>
      cases hs' : (s'.queueOf names m).hasErrors with
      | none => rw [hiff.2 hs'] at hs; cases hs
      | some g' => exact .failed rfl

theorem explains_construction {ds : List Diagnostic} (hfinish : b.finish names = .error ds)
    (h : s.compileUnit names b = .error f) : Phase.construction.Explains f.diagnostics := by
  rw [compileUnit, hfinish] at h
  cases h
  obtain ⟨⟨d, hd, herror⟩, hphase⟩ := Builder.finish_error hfinish
  refine Queue.explains_flush s.config (by decide) hphase fun hnone => ?_
  have hclean := (Queue.hasErrors_extend s.config ds).1 hnone d hd
  rw [herror] at hclean
  cases hclean

theorem explains_resolution {m : Module} (hfinish : b.finish names = .ok m)
    (h : s.compileUnit names b = .error f) : Phase.resolution.Explains f.diagnostics := by
  rw [compileUnit, hfinish] at h
  simp only [check, queueOf_eq] at h
  split at h
  next g herrors =>
    cases h
    exact Queue.explains_flush s.config (by decide) (fun d => Module.phase_reports)
      (by rw [herrors]; exact Option.some_ne_none g)
  next => cases h

/-! ## 3. Batches -/

-- Results stand in the order of the units.
theorem getElem?_compileUnits (s : Session) (names : Interner) (units : List Builder) (i : Nat) :
    (s.compileUnits names units).1[i]? = units[i]?.map ((s.register units).compileUnit names) :=
  List.getElem?_map

-- A batch is registered and compiled alike in sessions with one registry.
theorem compileUnits_sameOutcome (hregistry : s.registry = s'.registry) (names : Interner)
    (units : List Builder) :
    (s.compileUnits names units).2.registry = (s'.compileUnits names units).2.registry ∧
      List.Forall₂ SameOutcome (s.compileUnits names units).1 (s'.compileUnits names units).1 := by
  have hregister : (s.register units).registry = (s'.register units).registry := by
    simp only [register, hregistry]
  refine ⟨hregister, ?_⟩
  rw [compileUnits, compileUnits, List.forall₂_map_left_iff, List.forall₂_map_right_iff,
    List.forall₂_same]
  exact fun b _ => compileUnit_sameOutcome hregister

end Session

/-- **Settings of the reports change nothing else.** Take any batches, and two sessions that compile
them with the same names but limit and merge their reports in different ways. After each batch both
hold the same registry, and unit by unit they have the same result, or both a failure.

A failure is explained: if the unit could not be published there is an error of construction among
its reports, else one of resolution, and there is no report of any other phase but at most one that
there were too many. -/
theorem settings_irrelevant (config config' : QueueConfig) (past : List (Interner × List Builder))
    (names : Interner) (units : List Builder) :
    ((Session.after config past).compileUnits names units).2.registry =
        ((Session.after config' past).compileUnits names units).2.registry ∧
      List.Forall₂ SameOutcome ((Session.after config past).compileUnits names units).1
        ((Session.after config' past).compileUnits names units).1 ∧
      ∀ (i : Nat) (b : Builder) (f : FailedUnit), units[i]? = some b →
        ((Session.after config past).compileUnits names units).1[i]? = some (.error f) →
        (∀ ds, b.finish names = .error ds → Phase.construction.Explains f.diagnostics) ∧
        ∀ m, b.finish names = .ok m → Phase.resolution.Explains f.diagnostics := by
  have hregistry :
      (Session.after config past).registry = (Session.after config' past).registry := by
    rw [Session.registry_after, Session.registry_after]
  obtain ⟨hafter, houtcomes⟩ := Session.compileUnits_sameOutcome hregistry names units
  refine ⟨hafter, houtcomes, fun i b f hb hf => ?_⟩
  rw [Session.getElem?_compileUnits, hb, Option.map_some, Option.some.injEq] at hf
  exact ⟨fun ds hds => Session.explains_construction hds hf,
    fun m hm => Session.explains_resolution hm hf⟩

namespace TwoFaults

/-- A function reads two names that nothing binds. -/
def builder : Builder := (Builder.ofName ⟨1⟩).performAll
  [.declare ⟨2⟩ .anyUnit .topLevel .dummy,
    .edit ⟨0⟩ (.body (.mk
      [.expr (.reference ⟨3⟩ ⟨4, 5⟩) ⟨4, 5⟩, .expr (.reference ⟨4⟩ ⟨8, 9⟩) ⟨8, 9⟩] .dummy))]

/-- The queue stops after the first error. -/
def config : QueueConfig := ⟨1, true⟩

def module : Module := ⟨builder.name, builder.imports, builder.withCaptures, builder.nextSite⟩

def queue (config : QueueConfig) : Queue :=
  ({ config : Session }.register [builder]).queueOf .initial module

end TwoFaults

open TwoFaults in
-- One error and the report that there are more, or both errors: the unit fails either way.
theorem settings_irrelevant_limited :
    (queue config).flush.1.map (·.code) = [.undeclaredName, .tooManyErrors] ∧
      (queue .unlimited).flush.1.map (·.code) = [.undeclaredName, .undeclaredName] ∧
      Phase.resolution.Explains (queue config).flush.1 ∧
      Phase.resolution.Explains (queue .unlimited).flush.1 := by
  have hfinish : builder.finish .initial = .ok module := rfl
  obtain ⟨-, -, hlimited⟩ := settings_irrelevant config .unlimited [] .initial [builder]
  obtain ⟨-, -, hunlimited⟩ := settings_irrelevant .unlimited config [] .initial [builder]
  refine ⟨?_, ?_, ?_, ?_⟩
  · rw [Queue.flush, Diagnostic.sorted, List.mergeSort_of_pairwise (by decide)]
    rfl
  · rw [Queue.flush, Diagnostic.sorted, List.mergeSort_of_pairwise (by decide)]
    rfl
  · exact (hlimited 0 builder ⟨⟨1⟩, _⟩ rfl rfl).2 module hfinish
  · exact (hunlimited 0 builder ⟨⟨1⟩, _⟩ rfl rfl).2 module hfinish

end LateBind

import LateBind.Proofs.Diagnostic.Queue

/-!
# A queue under requests

A queue keeps a list of reports, a count of errors, the keys of the errors it has, and perhaps a last
report. These agree at every moment, whatever was asked of the queue, since what it then holds is what
it holds after being offered the reports that arrived after it was last flushed.
-/

namespace LateBind

/-! ## 1. Requests -/

/-- What can be asked of a queue. -/
inductive Request where
  | add (d : Diagnostic)
  | extend (ds : List Diagnostic)
  | emit (d : Diagnostic)
  | flush

/-- The reports offered since the queue was last flushed, when `ds` were offered before. -/
def Request.offered (ds : List Diagnostic) : Request → List Diagnostic
  | .add d => ds ++ [d]
  | .extend es => ds ++ es
  | .emit d => ds ++ [d]
  | .flush => []

/-- The reports offered after the last flush. -/
def pending (rs : List Request) : List Diagnostic := rs.foldl Request.offered []

/-- Two errors with one code at one primary span. -/
def Diagnostic.Same (a b : Diagnostic) : Prop :=
  a.isError = true ∧ b.isError = true ∧ a.code = b.code ∧
    ∃ span, a.primarySpan? = some span ∧ b.primarySpan? = some span

namespace Queue

variable {q : Queue} {a b d : Diagnostic} {ds : List Diagnostic}

/-- What a request leaves of the queue. -/
def serve (q : Queue) : Request → Queue
  | .add d => (q.add d).2
  | .extend ds => q.extend ds
  | .emit d => (q.emit d).2
  | .flush => q.flush.2

def serveAll (q : Queue) (rs : List Request) : Queue := rs.foldl serve q

theorem config_add (q : Queue) (d : Diagnostic) : (q.add d).2.config = q.config := by
  rcases q.add_cases d with ⟨-, hadd⟩ | ⟨-, -, hadd⟩ | ⟨-, -, hadd⟩ <;> rw [hadd] <;> rfl

theorem config_extend (q : Queue) (ds : List Diagnostic) : (q.extend ds).config = q.config := by
  induction ds generalizing q with
  | nil => rfl
  | cons d rest ih => rw [extend_cons, ih, config_add]

theorem serve_extend (config : QueueConfig) (ds : List Diagnostic) (r : Request) :
    ((ofConfig config).extend ds).serve r = (ofConfig config).extend (r.offered ds) := by
  cases r with
  | add d => exact (extend_append _ ds [d]).symm
  | extend es => exact (extend_append _ ds es).symm
  | emit d => exact (extend_append _ ds [d]).symm
  | flush => exact congrArg ofConfig (config_extend _ ds)

/-- Of the requests only the reports offered since the last flush matter. -/
theorem serveAll_eq_extend (config : QueueConfig) (rs : List Request) :
    (ofConfig config).serveAll rs = (ofConfig config).extend (pending rs) := by
  have hserved : ∀ ds, ((ofConfig config).extend ds).serveAll rs =
      (ofConfig config).extend (rs.foldl Request.offered ds) := by
    induction rs with
    | nil => exact fun ds => rfl
    | cons r rest ih =>
      intro ds
      have hrest := ih (r.offered ds)
      rwa [← serve_extend] at hrest
  exact hserved []

/-! ## 2. Repeats -/

theorem same_iff : a.Same b ↔ ∃ k, key? a = some k ∧ key? b = some k := by
  constructor
  · rintro ⟨ha, hb, hcode, span, hspana, hspanb⟩
    refine ⟨(a.code, span), ?_, ?_⟩
    · simp [key?, ha, hspana]
    · simp [key?, hb, hspanb, hcode]
  · rintro ⟨k, ha, hb⟩
    obtain ⟨haerror, span, hspana, rfl⟩ : a.isError = true ∧ ∃ span,
        a.primarySpan? = some span ∧ (a.code, span) = k := by simpa [key?] using ha
    obtain ⟨hberror, span', hspanb, hk⟩ : b.isError = true ∧ ∃ span',
        b.primarySpan? = some span' ∧ (b.code, span') = (a.code, span) := by simpa [key?] using hb
    obtain ⟨hcode, rfl⟩ := Prod.mk.inj hk
    exact ⟨haerror, hberror, hcode.symm, span', hspana, hspanb⟩

-- A warning has no key, and neither has an error without a primary span.
theorem key?_eq_none (h : d.isError = false ∨ d.primarySpan? = none) : key? d = none := by
  rcases h with h | h <;> simp [key?, h]

/-! ## 3. What stays true -/

/-- The parts of a queue agree: the keys are those of the reports it has, no error was taken past the
limit, the last report is there only once the limit is reached, and no two reports are the same where
that is asked for. -/
structure Consistent (q : Queue) : Prop where
  noted : q.seen = q.reports.reverse.filterMap key?
  bounded : 0 < q.config.errorLimit → q.errors ≤ q.config.errorLimit
  stopped : ∀ r ∈ q.overflow, q.limitReached = true ∧
    ∃ span, r = tooManyErrors q.config.errorLimit span
  apart : q.config.deduplicate = true → q.reports.Pairwise fun a b => ¬ a.Same b

theorem consistent_ofConfig (config : QueueConfig) : (ofConfig config).Consistent :=
  ⟨rfl, fun _ => Nat.zero_le _, nofun, fun _ => .nil⟩

/-- A report repeats a queued one exactly if the queue has one that is the same, so a key is never
kept for a report that was not taken. -/
theorem Consistent.repeats_iff (h : q.Consistent) :
    q.repeats d = true ↔ q.config.deduplicate = true ∧ ∃ e ∈ q.reports, e.Same d := by
  have hseen : (key? d).any q.seen.contains = true ↔ ∃ e ∈ q.reports, e.Same d := by
    simp only [Option.any_eq_true, List.contains_iff_mem, h.noted, List.mem_filterMap,
      List.mem_reverse, same_iff]
    constructor
    · rintro ⟨k, hd, e, he, hk⟩
      exact ⟨e, he, k, hk, hd⟩
    · rintro ⟨e, he, k, hk, hd⟩
      exact ⟨k, hd, e, he, hk⟩
  rw [repeats, Bool.and_eq_true, hseen]

theorem limitReached_eq_false_iff :
    q.limitReached = false ↔ (0 < q.config.errorLimit → q.errors < q.config.errorLimit) := by
  simp [limitReached]

theorem Consistent.take (h : q.Consistent) (hlimit : q.limitReached = false)
    (hrepeats : q.repeats d = false) : (q.take d).Consistent where
  noted := by
    have hnoted := h.noted
    simp only [Queue.take, List.reverse_append, List.reverse_singleton, List.singleton_append,
      List.filterMap_cons, hnoted]
    cases key? d <;> rfl
  bounded hpos := by
    have hlt := limitReached_eq_false_iff.1 hlimit hpos
    change (if d.isError then q.errors + 1 else q.errors) ≤ q.config.errorLimit
    split <;> omega
  stopped r hr := by
    have hreached := (h.stopped r hr).1
    rw [hlimit] at hreached
    cases hreached
  apart hdedup := by
    have hnew : ∀ e ∈ q.reports, ¬ e.Same d := by
      intro e he hsame
      have hrepeat := h.repeats_iff.2 ⟨hdedup, e, he, hsame⟩
      rw [hrepeats] at hrepeat
      cases hrepeat
    apply List.pairwise_append.2
    refine ⟨h.apart hdedup, List.pairwise_singleton _ _, fun e he b hb => ?_⟩
    rw [List.mem_singleton.1 hb]
    exact hnew e he

theorem Consistent.stop (h : q.Consistent) (hlimit : q.limitReached = true) (d : Diagnostic) :
    (q.stop d).Consistent where
  noted := h.noted
  bounded := h.bounded
  stopped r hr := by
    refine ⟨hlimit, ?_⟩
    rcases Option.or_eq_some_iff.1 hr with hr | ⟨-, hr⟩
    · exact (h.stopped r hr).2
    · cases hr
      exact ⟨_, rfl⟩
  apart := h.apart

theorem Consistent.add (h : q.Consistent) (d : Diagnostic) : (q.add d).2.Consistent := by
  rcases q.add_cases d with ⟨hlimit, hadd⟩ | ⟨-, -, hadd⟩ | ⟨hlimit, hrepeats, hadd⟩ <;> rw [hadd]
  · exact h.stop hlimit d
  · exact h
  · exact h.take hlimit hrepeats

theorem Consistent.extend (h : q.Consistent) (ds : List Diagnostic) : (q.extend ds).Consistent := by
  induction ds generalizing q with
  | nil => exact h
  | cons d rest ih => exact ih (h.add d)

/-! ## 4. What is taken -/

-- The answer to an offer says what became of it.
theorem add_answer (q : Queue) (d : Diagnostic) :
    ((q.add d).1 = true → (q.add d).2.reports = q.reports ++ [d]) ∧
    ((q.add d).1 = false → (q.add d).2.reports = q.reports) := by
  rcases q.add_cases d with ⟨-, hadd⟩ | ⟨-, -, hadd⟩ | ⟨-, -, hadd⟩ <;> rw [hadd]
  · exact ⟨nofun, fun _ => rfl⟩
  · exact ⟨nofun, fun _ => rfl⟩
  · exact ⟨fun _ => rfl, nofun⟩

theorem reports_add (q : Queue) (d : Diagnostic) : q.reports <+: (q.add d).2.reports := by
  have hkept : (q.add d).2.reports = q.reports ∨ (q.add d).2.reports = q.reports ++ [d] := by
    cases h : (q.add d).1 with
    | true => exact .inr ((q.add_answer d).1 h)
    | false => exact .inl ((q.add_answer d).2 h)
  rcases hkept with hkept | hkept
  · exact hkept ▸ List.prefix_rfl
  · exact hkept ▸ List.prefix_append q.reports [d]

/-- What was taken stays, and what is taken later comes after it. -/
theorem reports_extend (q : Queue) (ds : List Diagnostic) :
    q.reports <+: (q.extend ds).reports := by
  induction ds generalizing q with
  | nil => exact List.prefix_rfl
  | cons d rest ih => exact (q.reports_add d).trans (ih _)

theorem Consistent.add_eq_true_iff (h : q.Consistent) :
    (q.add d).1 = true ↔ q.limitReached = false ∧
      ¬ (q.config.deduplicate = true ∧ ∃ e ∈ q.reports, e.Same d) := by
  rw [← h.repeats_iff]
  rcases q.add_cases d with ⟨hlimit, hadd⟩ | ⟨hlimit, hrepeats, hadd⟩ | ⟨hlimit, hrepeats, hadd⟩ <;>
    simp [*]

/-- A warning, or an error without a primary span, is taken as long as the limit is not reached. -/
theorem add_eq_true (hlimit : q.limitReached = false)
    (h : d.isError = false ∨ d.primarySpan? = none) : q.add d = (true, q.take d) := by
  have hrepeats : q.repeats d = false := by rw [repeats, key?_eq_none h]; simp
  rcases q.add_cases d with ⟨hreached, -⟩ | ⟨-, hrepeat, -⟩ | ⟨-, -, hadd⟩
  · rw [hlimit] at hreached; cases hreached
  · rw [hrepeats] at hrepeat; cases hrepeat
  · exact hadd

theorem mem_reports_extend (hlimit : (q.extend ds).limitReached = false)
    (h : d.isError = false ∨ d.primarySpan? = none) (es : List Diagnostic) :
    d ∈ (q.extend (ds ++ d :: es)).reports := by
  rw [extend_append, extend_cons, add_eq_true hlimit h]
  apply (reports_extend _ es).subset
  exact List.mem_append_right _ (List.mem_singleton_self d)

-- Only the last report is of the queue's own making.
theorem countP_tooManyErrors_contents (h : q.reports.Sublist ds) :
    q.contents.countP (·.code = .tooManyErrors) ≤ ds.countP (·.code = .tooManyErrors) + 1 := by
  have htaken := h.countP_le (p := fun r => decide (r.code = .tooManyErrors))
  have hlast := List.countP_le_length (p := fun r => decide (r.code = .tooManyErrors))
    (l := q.overflow.toList)
  have hone := Option.length_toList_le (o := q.overflow)
  rw [contents, List.countP_append]
  omega

end Queue

/-- **The parts of a queue agree under any requests.** Whatever was asked of a queue so far, it holds
some of the reports offered since it was last flushed, in their order, and at most one report more,
which says that the limit was passed and is there only once the limit is reached. The count is that of
the errors taken and never passes a limit that is set, and where repeats are dropped no two of those
errors are the same. The answer to an offer says whether the report was taken, which it is not exactly
if the limit is reached or it repeats one that was taken. So warnings and errors without a primary
span are kept whenever they arrive before the limit is reached. A flushed queue is a new one. -/
theorem queue_consistent (config : QueueConfig) (rs : List Request) :
    let q := (Queue.ofConfig config).serveAll rs
    q.reports.Sublist (pending rs) ∧
    q.contents = q.reports ++ q.overflow.toList ∧
    q.contents.countP (·.code = .tooManyErrors) ≤
      (pending rs).countP (·.code = .tooManyErrors) + 1 ∧
    (∀ r ∈ q.overflow, q.limitReached = true ∧
      ∃ span, r = Queue.tooManyErrors config.errorLimit span) ∧
    q.errors = q.reports.countP (·.isError) ∧
    (0 < config.errorLimit → q.errors ≤ config.errorLimit) ∧
    (config.deduplicate = true → q.reports.Pairwise fun a b => ¬ a.Same b) ∧
    (∀ d, ((q.add d).1 = true → (q.add d).2.reports = q.reports ++ [d]) ∧
      ((q.add d).1 = false → (q.add d).2.reports = q.reports) ∧
      ((q.add d).1 = true ↔ q.limitReached = false ∧
        ¬ (config.deduplicate = true ∧ ∃ e ∈ q.reports, e.Same d))) ∧
    (∀ before d after, pending rs = before ++ d :: after →
      d.isError = false ∨ d.primarySpan? = none →
      ((Queue.ofConfig config).extend before).limitReached = false → d ∈ q.reports) ∧
    q.flush.2 = Queue.ofConfig config := by
  intro q
  have hq : q = (Queue.ofConfig config).extend (pending rs) := Queue.serveAll_eq_extend config rs
  have hconfig : q.config = config := by rw [hq, Queue.config_extend]; rfl
  have hholding : q.Holding (pending rs) := by rw [hq]; exact Queue.holding_extend config _
  have hconsistent : q.Consistent := by rw [hq]; exact (Queue.consistent_ofConfig config).extend _
  have hstopped := hconsistent.stopped
  have hbounded := hconsistent.bounded
  have hapart := hconsistent.apart
  rw [hconfig] at hstopped hbounded hapart
  refine ⟨hholding.taken, rfl, Queue.countP_tooManyErrors_contents hholding.taken, hstopped,
    hholding.counted, hbounded, hapart, fun d => ?_, fun before d after hpending hkept hlimit => ?_,
    ?_⟩
  · have hanswer := hconsistent.add_eq_true_iff (d := d)
    rw [hconfig] at hanswer
    exact ⟨(q.add_answer d).1, (q.add_answer d).2, hanswer⟩
  · rw [hq, hpending]
    exact Queue.mem_reports_extend hlimit hkept after
  · exact congrArg Queue.ofConfig hconfig

end LateBind

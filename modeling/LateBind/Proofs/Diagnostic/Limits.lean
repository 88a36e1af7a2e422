import LateBind.Proofs.Diagnostic.Requests
import LateBind.Proofs.Diagnostic.Sorting

/-!
# What a limit hides

A limited queue and an unlimited one that are offered the same reports hold the same until the limited
one has as many errors as it may. The next offer stops it for good, be it an error, a warning or a
repeat. So what a limited queue hands out is a first part of what the unlimited one does, and the
report that it stopped is there if that part is not all.
-/

namespace LateBind

namespace Queue

variable {q : Queue} {d : Diagnostic} {ds : List Diagnostic} {limit : Nat}

/-! ## 1. Side by side -/

/-- The same queue under another limit. -/
def withLimit (q : Queue) (limit : Nat) : Queue :=
  { q with config := { q.config with errorLimit := limit } }

theorem errors_add_le (q : Queue) (d : Diagnostic) : (q.add d).2.errors ≤ q.errors + 1 := by
  rcases q.add_cases d with ⟨-, hadd⟩ | ⟨-, -, hadd⟩ | ⟨-, -, hadd⟩ <;> rw [hadd]
  · exact Nat.le_succ _
  · exact Nat.le_succ _
  · dsimp only [take]
    split <;> omega

-- Below the limit nothing depends on it.
theorem add_withLimit (hunlimited : q.config.errorLimit = 0) (hlt : q.errors < limit) :
    ((q.withLimit limit).add d).2 = (q.add d).2.withLimit limit := by
  have hlimit : q.limitReached = false := by
    apply limitReached_eq_false_iff.2
    omega
  have hlimit' : (q.withLimit limit).limitReached = false :=
    limitReached_eq_false_iff.2 fun _ => hlt
  have hrepeats : (q.withLimit limit).repeats d = q.repeats d := rfl
  cases h : q.repeats d with
  | true => simp [add, hlimit, hlimit', hrepeats, h]
  | false =>
    simp only [add, hlimit, hlimit', hrepeats, h, Bool.false_eq_true, if_false]
    rfl

/-- A queue that has stopped keeps its last report. -/
theorem extend_stop (hlimit : q.limitReached = true) (d : Diagnostic) (ds : List Diagnostic) :
    (q.stop d).extend ds = q.stop d := by
  induction ds with
  | nil => rfl
  | cons e rest ih =>
    have hagain : ((q.stop d).add e).2 = q.stop d := by
      rcases (q.stop d).add_cases e with ⟨-, hadd⟩ | ⟨hbelow, -⟩ | ⟨hbelow, -⟩
      · rw [hadd]
        simp [stop]
      · exact absurd (hbelow.symm.trans hlimit) Bool.false_ne_true
      · exact absurd (hbelow.symm.trans hlimit) Bool.false_ne_true
    rw [extend_cons, hagain, ih]

/-- A limited queue is the unlimited one until its errors are as many as the limit. What is offered
next stops it. -/
theorem extend_withLimit (hunlimited : q.config.errorLimit = 0) (hpos : 0 < limit)
    (hle : q.errors ≤ limit) (ds : List Diagnostic) :
    ((q.extend ds).errors ≤ limit ∧
      (q.withLimit limit).extend ds = (q.extend ds).withLimit limit) ∨
    ∃ before d after, ds = before ++ d :: after ∧ (q.extend before).errors = limit ∧
      (q.withLimit limit).extend ds = ((q.extend before).withLimit limit).stop d := by
  induction ds generalizing q with
  | nil => exact .inl ⟨hle, rfl⟩
  | cons d rest ih =>
    by_cases hlt : q.errors < limit
    · have hnext := q.errors_add_le d
      have hconfig : (q.add d).2.config.errorLimit = 0 := by rw [config_add, hunlimited]
      rw [extend_cons (q.withLimit limit), add_withLimit hunlimited hlt, extend_cons q]
      rcases ih hconfig (by omega) with hrest | ⟨before, e, after, rfl, herrors, hrest⟩
      · exact .inl hrest
      · exact .inr ⟨d :: before, e, after, rfl, herrors, hrest⟩
    · have hreached : (q.withLimit limit).limitReached = true := by
        have hfull : limit ≤ q.errors := by omega
        simp [limitReached, withLimit, hpos, hfull]
      refine .inr ⟨[], d, rest, rfl, by change q.errors = limit; omega, ?_⟩
      rcases (q.withLimit limit).add_cases d with ⟨-, hadd⟩ | ⟨hbelow, -⟩ | ⟨hbelow, -⟩
      · rw [extend_cons, hadd, extend_stop hreached]
        rfl
      · exact absurd (hbelow.symm.trans hreached) Bool.false_ne_true
      · exact absurd (hbelow.symm.trans hreached) Bool.false_ne_true

/-! ## 2. What a limited queue takes -/

/-- A new queue after it was offered `ds`; with limit 0 it is unlimited. -/
def filled (limit : Nat) (deduplicate : Bool) (ds : List Diagnostic) : Queue :=
  (ofConfig ⟨limit, deduplicate⟩).extend ds

theorem filled_append (limit : Nat) (deduplicate : Bool) (ds es : List Diagnostic) :
    filled limit deduplicate (ds ++ es) = (filled limit deduplicate ds).extend es :=
  extend_append _ ds es

theorem errors_filled (limit : Nat) (deduplicate : Bool) (ds : List Diagnostic) :
    (filled limit deduplicate ds).errors =
      ((filled limit deduplicate ds).reports.filter (·.isError)).length := by
  rw [← List.countP_eq_length_filter]
  exact (holding_extend _ ds).counted

variable (deduplicate : Bool) (ds : List Diagnostic)

theorem overflow_unlimited : (filled 0 deduplicate ds).overflow = none := by
  apply Option.eq_none_iff_forall_not_mem.2
  intro r hr
  have hreached := (((consistent_ofConfig ⟨0, deduplicate⟩).extend ds).stopped r hr).1
  rw [limitReached, config_extend] at hreached
  cases hreached

theorem contents_unlimited : (filled 0 deduplicate ds).contents = (filled 0 deduplicate ds).reports := by
  rw [contents, overflow_unlimited]
  exact List.append_nil _

/-- A limited queue has taken all that an unlimited one has if it has not stopped, else what was taken
up to the last error it may have. -/
theorem limited_cases (hpos : 0 < limit) :
    ((filled limit deduplicate ds).overflow = none ∧
      (filled limit deduplicate ds).reports = (filled 0 deduplicate ds).reports ∧
      (filled 0 deduplicate ds).errors ≤ limit) ∨
    ((filled limit deduplicate ds).overflow ≠ none ∧
      ∃ before d after, ds = before ++ d :: after ∧ (filled 0 deduplicate before).errors = limit ∧
        (filled limit deduplicate ds).reports = (filled 0 deduplicate before).reports) := by
  have hstart : filled limit deduplicate ds =
      ((ofConfig ⟨0, deduplicate⟩).withLimit limit).extend ds := rfl
  rw [hstart]
  rcases extend_withLimit rfl hpos (Nat.zero_le limit) ds (q := ofConfig ⟨0, deduplicate⟩) with
    ⟨hle, hsame⟩ | ⟨before, d, after, hds, herrors, hstopped⟩
  · rw [hsame]
    exact .inl ⟨overflow_unlimited deduplicate ds, rfl, hle⟩
  · rw [hstopped]
    refine .inr ⟨?_, before, d, after, hds, herrors, rfl⟩
    simp [stop]

theorem reports_prefix_unlimited (hpos : 0 < limit) :
    (filled limit deduplicate ds).reports <+: (filled 0 deduplicate ds).reports := by
  rcases limited_cases deduplicate ds hpos with ⟨-, hreports, -⟩ |
    ⟨-, before, d, after, rfl, -, hreports⟩
  · exact hreports ▸ List.prefix_rfl
  · rw [hreports, filled_append]
    exact reports_extend _ _

/-- The errors that a limited queue takes are the first of those that an unlimited one does. -/
theorem errors_limited (hpos : 0 < limit) :
    (filled limit deduplicate ds).reports.filter (·.isError) =
      ((filled 0 deduplicate ds).reports.filter (·.isError)).take limit := by
  rcases limited_cases deduplicate ds hpos with ⟨-, hreports, hle⟩ |
    ⟨-, before, d, after, -, herrors, hreports⟩
  · rw [errors_filled] at hle
    rw [hreports]
    exact (List.take_of_length_le hle).symm
  · rw [errors_filled, ← hreports] at herrors
    have hprefix := (reports_prefix_unlimited deduplicate ds hpos).filter (·.isError)
    have hfirst := List.prefix_iff_eq_take.1 hprefix
    rwa [herrors] at hfirst

/-! ## 3. What a limited queue hands out -/

variable {deduplicate : Bool} {ds : List Diagnostic}

/-- Besides the last report a queue hands out what it has taken. -/
theorem Holding.filter_flush (h : q.Holding ds) (hds : ∀ d ∈ ds, d.code ≠ .tooManyErrors) :
    q.flush.1.filter (·.code ≠ .tooManyErrors) = Diagnostic.sorted q.reports := by
  have hreports : q.reports.filter (·.code ≠ .tooManyErrors) = q.reports :=
    List.filter_eq_self.2 fun d hd => decide_eq_true (hds d (h.taken.subset hd))
  have hlast : q.overflow.toList.filter (·.code ≠ .tooManyErrors) = [] := by
    apply List.filter_eq_nil_iff.2
    intro r hr
    simp [h.stopped r (Option.mem_toList.1 hr)]
  rw [flush, Diagnostic.filter_sorted, contents, List.filter_append, hreports, hlast,
    List.append_nil]

theorem Holding.mem_flush_iff (h : q.Holding ds) (hds : ∀ d ∈ ds, d.code ≠ .tooManyErrors) :
    (∃ r ∈ q.flush.1, r.code = .tooManyErrors) ↔ q.overflow ≠ none := by
  constructor
  · rintro ⟨r, hr, hcode⟩ hnone
    rcases List.mem_append.1 ((perm_flush q).mem_iff.1 hr) with hr | hr
    · exact hds r (h.taken.subset hr) hcode
    · rw [hnone] at hr
      cases hr
  · intro hsome
    obtain ⟨r, hr⟩ := Option.ne_none_iff_exists'.1 hsome
    refine ⟨r, (perm_flush q).mem_iff.2 (List.mem_append_right _ ?_), h.stopped r hr⟩
    exact Option.mem_toList.2 hr

theorem length_flush_unlimited :
    (filled 0 deduplicate ds).flush.1.length = (filled 0 deduplicate ds).reports.length := by
  rw [(perm_flush _).length_eq, contents_unlimited]

-- Without merging every report is taken, so any that the limited queue did not see is one more.
theorem lt_of_overflow (hpos : 0 < limit) (hoverflow : (filled limit false ds).overflow ≠ none) :
    (filled limit false ds).reports.length < (filled 0 false ds).reports.length := by
  have hall : ∀ es, (filled 0 false es).reports = es := by
    intro es
    rw [← contents_unlimited]
    exact contents_extend_unlimited es
  rcases limited_cases false ds hpos with ⟨hnone, -⟩ | ⟨-, before, d, after, hds, -, hreports⟩
  · exact absurd hnone hoverflow
  · rw [hreports, hall, hall, hds, List.length_append, List.length_cons]
    omega

theorem overflow_of_lt (hpos : 0 < limit)
    (hlt : (filled limit deduplicate ds).reports.length < (filled 0 deduplicate ds).reports.length) :
    (filled limit deduplicate ds).overflow ≠ none := by
  rcases limited_cases deduplicate ds hpos with ⟨-, hreports, -⟩ | ⟨hsome, -⟩
  · rw [hreports] at hlt
    exact absurd hlt (Nat.lt_irrefl _)
  · exact hsome

end Queue

/-- **What a limit hides is announced.** Of one sequence of reports, none of them the last report of a
queue, a queue with a limit hands out by position a first part of what the same queue without a limit
takes, with just the first `limit` of its errors. It adds the report that there were too many whenever
the unlimited queue hands out more errors than the limit, or any report more than it does itself.
Without merging it does so only then; otherwise only if some report arrived after the last error it
may have. -/
theorem overflow_reported (limit : Nat) (deduplicate : Bool) (ds : List Diagnostic)
    (hpos : 0 < limit) (hds : ∀ d ∈ ds, d.code ≠ .tooManyErrors) :
    let limited := Queue.filled limit deduplicate ds
    let unlimited := Queue.filled 0 deduplicate ds
    let announced := ∃ r ∈ limited.flush.1, r.code = .tooManyErrors
    let own := limited.flush.1.filter (·.code ≠ .tooManyErrors)
    (limit < unlimited.flush.1.countP (·.isError) → announced) ∧
    (own.length < unlimited.flush.1.length → announced) ∧
    (deduplicate = false → announced → own.length < unlimited.flush.1.length) ∧
    (announced → ∃ before d after, ds = before ++ d :: after ∧
      (Queue.filled 0 deduplicate before).errors = limit) ∧
    (∃ taken, taken <+: unlimited.contents ∧ own = Diagnostic.sorted taken) ∧
    own.filter (·.isError) =
      Diagnostic.sorted ((unlimited.contents.filter (·.isError)).take limit) := by
  intro limited unlimited announced own
  have hholding : limited.Holding ds := Queue.holding_extend _ ds
  have hannounced : announced ↔ limited.overflow ≠ none := hholding.mem_flush_iff hds
  have hown : own = Diagnostic.sorted limited.reports := hholding.filter_flush hds
  have hlength : own.length = limited.reports.length := by
    rw [hown]
    exact (Diagnostic.perm_sorted _).length_eq
  have hcontents : unlimited.contents = unlimited.reports := Queue.contents_unlimited deduplicate ds
  have hall : unlimited.flush.1.length = unlimited.reports.length := Queue.length_flush_unlimited
  rw [hannounced, hlength, hall, hcontents]
  refine ⟨fun hlt => ?_, Queue.overflow_of_lt hpos, fun hmerge hsome => ?_, fun hsome => ?_,
    ⟨_, Queue.reports_prefix_unlimited deduplicate ds hpos, hown⟩, ?_⟩
  · -- Then the unlimited queue has errors that the limited one has not.
    rw [(Queue.perm_flush unlimited).countP_eq, hcontents, List.countP_eq_length_filter,
      ← Queue.errors_filled] at hlt
    rcases Queue.limited_cases deduplicate ds hpos with ⟨-, -, hle⟩ | ⟨hsome, -⟩
    · exact absurd hlt (Nat.not_lt.2 hle)
    · exact hsome
  · subst hmerge
    exact Queue.lt_of_overflow hpos hsome
  · rcases Queue.limited_cases deduplicate ds hpos with ⟨hnone, -⟩ |
      ⟨-, before, d, after, hsplit, herrors, -⟩
    · exact absurd hnone hsome
    · exact ⟨before, d, after, hsplit, herrors⟩
  · rw [hown, Diagnostic.filter_sorted]
    exact congrArg Diagnostic.sorted (Queue.errors_limited deduplicate ds hpos)

/-- An undeclared name and an unresolved call, where one error is too many. -/
theorem overflow_reported_second :
    let limited := Queue.filled 1 true [(Diagnostic.ofCode .undeclaredName).withLabel ⟨9, 12⟩ "",
      (Diagnostic.ofCode .unresolvedCall).withLabel ⟨5, 6⟩ ""]
    ∃ r ∈ limited.flush.1, r.code = .tooManyErrors := by
  refine (overflow_reported 1 true _ (by decide) (by decide)).1 ?_
  rw [(Queue.perm_flush _).countP_eq]
  decide

/-- A warning that arrives after the last error is announced as well, though no error is hidden. -/
theorem overflow_not_only_errors :
    let ds := [(Diagnostic.ofCode .unresolvedCall).withLabel ⟨5, 6⟩ "here",
      { (Diagnostic.ofCode .nameRebound).withLabel ⟨7, 8⟩ "here" with severity := .warning }]
    (∀ d ∈ ds, d.code ≠ .tooManyErrors) ∧
    ¬ ((∃ r ∈ (Queue.filled 1 true ds).flush.1, r.code = .tooManyErrors) ↔
      1 < (Queue.filled 0 true ds).flush.1.countP (·.isError)) := by
  refine ⟨by decide, fun h => ?_⟩
  rw [(Queue.perm_flush _).countP_eq] at h
  obtain ⟨r, hr, hcode⟩ : ∃ r ∈ (Queue.filled 1 true
      [(Diagnostic.ofCode .unresolvedCall).withLabel ⟨5, 6⟩ "here",
        { (Diagnostic.ofCode .nameRebound).withLabel ⟨7, 8⟩ "here" with
          severity := .warning }]).contents, r.code = .tooManyErrors := by decide
  exact absurd (h.1 ⟨r, (Queue.perm_flush _).mem_iff.2 hr, hcode⟩) (by decide)

end LateBind

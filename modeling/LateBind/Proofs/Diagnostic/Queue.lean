import LateBind.Diagnostic.Queue

/-!
# What a queue lets through

A queue may turn reports away, but whether it has errors at all does not depend on its limit or on
merging: it has none only where none was offered. What it hands out was offered to it, but for the
one report that it stopped.
-/

namespace LateBind

namespace Queue

variable {q : Queue} {d : Diagnostic}

/-- What becomes of a queue that takes a report. -/
def take (q : Queue) (d : Diagnostic) : Queue :=
  { q with
    reports := q.reports ++ [d]
    errors := if d.isError then q.errors + 1 else q.errors
    seen := (key? d).toList ++ q.seen }

/-- What becomes of a queue that turns a report away at its limit. -/
def stop (q : Queue) (d : Diagnostic) : Queue :=
  { q with
    overflow := q.overflow.or
      (some (tooManyErrors q.config.errorLimit (d.primarySpan?.getD .dummy))) }

/-- A report is turned away at the limit, dropped as a repeat, or taken. -/
theorem add_cases (q : Queue) (d : Diagnostic) :
    (q.limitReached = true ∧ q.add d = (false, q.stop d)) ∨
    (q.limitReached = false ∧ q.repeats d = true ∧ q.add d = (false, q)) ∨
    (q.limitReached = false ∧ q.repeats d = false ∧ q.add d = (true, q.take d)) := by
  unfold add
  cases hlimit : q.limitReached with
  | true => exact .inl ⟨rfl, rfl⟩
  | false =>
    cases hrepeats : q.repeats d with
    | true => exact .inr (.inl ⟨rfl, rfl, rfl⟩)
    | false => exact .inr (.inr ⟨rfl, rfl, rfl⟩)

theorem extend_cons (q : Queue) (d : Diagnostic) (ds : List Diagnostic) :
    q.extend (d :: ds) = (q.add d).2.extend ds := rfl

theorem extend_append (q : Queue) (ds es : List Diagnostic) :
    q.extend (ds ++ es) = (q.extend ds).extend es := List.foldl_append

/-! ## 1. A queue that takes everything -/

theorem contents_extend_unlimited (ds : List Diagnostic) :
    ((ofConfig .unlimited).extend ds).contents = ds := by
  -- With no limit and no merging every report is taken.
  have hextend : ∀ q : Queue, q.config = .unlimited → q.overflow = none →
      (q.extend ds).contents = q.reports ++ ds := by
    induction ds with
    | nil =>
      intro q _ hoverflow
      simp [extend, contents, hoverflow]
    | cons d rest ih =>
      intro q hconfig hoverflow
      have hadd : (q.add d).2 = q.take d := by
        simp [add, limitReached, repeats, hconfig, QueueConfig.unlimited, take]
      have hrest := ih (q.add d).2 (by rw [hadd]; exact hconfig) (by rw [hadd]; exact hoverflow)
      rw [extend_cons, hrest, hadd, take, List.append_assoc]
      rfl
  exact hextend _ rfl rfl

/-! ## 2. Errors -/

theorem errors_le_add (q : Queue) (d : Diagnostic) : q.errors ≤ (q.add d).2.errors := by
  rcases q.add_cases d with ⟨-, hadd⟩ | ⟨-, -, hadd⟩ | ⟨-, -, hadd⟩
  · exact Nat.le_of_eq (by rw [hadd]; rfl)
  · exact Nat.le_of_eq (by rw [hadd])
  · rw [hadd]
    dsimp only [take]
    split <;> omega

theorem errors_le_extend (ds : List Diagnostic) (q : Queue) : q.errors ≤ (q.extend ds).errors := by
  induction ds generalizing q with
  | nil => exact Nat.le_refl _
  | cons d rest ih => exact Nat.le_trans (q.errors_le_add d) (ih _)

-- No limit is reached before the first error, and nothing repeats an error before there is one.
theorem add_of_errors_eq_zero (herrors : q.errors = 0) (hseen : q.seen = []) :
    q.add d = (true, q.take d) := by
  have hlimit : q.limitReached = false := by
    rw [limitReached, herrors]
    cases q.config.errorLimit <;> rfl
  have hrepeats : q.repeats d = false := by
    rw [repeats, hseen]
    cases key? d <;> simp
  simp [add, hlimit, hrepeats, take]

theorem errors_extend_eq_zero (ds : List Diagnostic) (herrors : q.errors = 0)
    (hseen : q.seen = []) : (q.extend ds).errors = 0 ↔ ∀ d ∈ ds, d.isError = false := by
  induction ds generalizing q with
  | nil => simp [extend, herrors]
  | cons d rest ih =>
    rw [extend_cons, add_of_errors_eq_zero herrors hseen, List.forall_mem_cons]
    cases hd : d.isError with
    | true =>
      -- The error counts from here on.
      have htaken : (q.take d).errors = 1 := by simp [take, hd, herrors]
      have hle := errors_le_extend rest (q.take d)
      simp only [Bool.true_eq_false, false_and, iff_false]
      omega
    | false =>
      rw [ih (by simp [take, hd, herrors]) (by simp [take, key?, hd, hseen])]
      simp

/-- No error is lost: whatever the limit and whether repeats are dropped, a queue comes out without
errors exactly if no report that was offered is an error. -/
theorem hasErrors_extend (config : QueueConfig) (ds : List Diagnostic) :
    ((ofConfig config).extend ds).hasErrors = none ↔ ∀ d ∈ ds, d.isError = false := by
  rw [← errors_extend_eq_zero ds (q := ofConfig config) rfl rfl, hasErrors, Guarantee.ofErrorCount]
  split
  next h => simp [Nat.ne_of_gt h]
  next h => simp [Nat.eq_zero_of_not_pos h]

/-! ## 3. Contents -/

/-- A queue that the reports `ds` went to has taken some of them, in their order, and counts the
errors among those. If it has stopped there is one report more, which says so. -/
structure Holding (q : Queue) (ds : List Diagnostic) : Prop where
  taken : q.reports.Sublist ds
  counted : q.errors = q.reports.countP (·.isError)
  stopped : ∀ d ∈ q.overflow, d.code = .tooManyErrors

variable {ds : List Diagnostic}

theorem holding_ofConfig (config : QueueConfig) : (ofConfig config).Holding [] :=
  ⟨.refl _, rfl, fun _ h => nomatch h⟩

theorem Holding.add (h : q.Holding ds) (d : Diagnostic) : (q.add d).2.Holding (ds ++ [d]) := by
  have hmore : ds.Sublist (ds ++ [d]) := List.sublist_append_left ds [d]
  rcases q.add_cases d with ⟨-, hadd⟩ | ⟨-, -, hadd⟩ | ⟨-, -, hadd⟩ <;> rw [hadd]
  · refine ⟨h.taken.trans hmore, h.counted, fun e he => ?_⟩
    rcases Option.or_eq_some_iff.1 he with he | ⟨-, he⟩
    · exact h.stopped e he
    · cases he
      rfl
  · exact ⟨h.taken.trans hmore, h.counted, h.stopped⟩
  · refine ⟨h.taken.append_right [d], ?_, h.stopped⟩
    dsimp only [take]
    rw [List.countP_append, List.countP_singleton, ← h.counted]
    cases d.isError <;> rfl

theorem Holding.extend (h : q.Holding ds) (es : List Diagnostic) :
    (q.extend es).Holding (ds ++ es) := by
  induction es generalizing q ds with
  | nil => simpa [Queue.extend] using h
  | cons d rest ih =>
    have hrest := ih (h.add d)
    rwa [List.append_assoc, List.singleton_append, ← extend_cons] at hrest

theorem holding_extend (config : QueueConfig) (ds : List Diagnostic) :
    ((ofConfig config).extend ds).Holding ds :=
  (holding_ofConfig config).extend ds

-- Handing out sorts what is there.
theorem perm_flush (q : Queue) : q.flush.1.Perm q.contents := List.mergeSort_perm _ _

theorem Holding.exists_error (h : q.Holding ds) (herrors : q.hasErrors ≠ none) :
    ∃ d ∈ q.reports, d.isError = true := by
  have hpos : 0 < q.errors := Nat.pos_of_ne_zero fun hzero =>
    herrors (by rw [hasErrors, hzero]; rfl)
  rw [h.counted, List.countP_pos_iff] at hpos
  exact hpos

end Queue

/-- The reports that a failure in `phase` comes with: an error of that phase, and nothing of another
phase but at most one report that there were too many. -/
structure Phase.Explains (phase : Phase) (ds : List Diagnostic) : Prop where
  error : ∃ d ∈ ds, d.isError = true ∧ d.code.phase = phase
  phase : ∀ d ∈ ds, d.code = .tooManyErrors ∨ d.code.phase = phase
  once : ds.countP (·.code = .tooManyErrors) ≤ 1

/-- Whatever a queue drops, it explains a failure in the phase that its reports are from. -/
theorem Queue.explains_flush (config : QueueConfig) {phase : Phase} {ds : List Diagnostic}
    (hinternal : phase ≠ .internal) (hphase : ∀ d ∈ ds, d.code.phase = phase)
    (herrors : ((ofConfig config).extend ds).hasErrors ≠ none) :
    phase.Explains ((ofConfig config).extend ds).flush.1 := by
  have hholding := holding_extend config ds
  have hperm := perm_flush ((ofConfig config).extend ds)
  generalize (ofConfig config).extend ds = q at *
  have htaken : ∀ d ∈ q.reports, d.code.phase = phase := fun d hd =>
    hphase d (hholding.taken.subset hd)
  refine ⟨?_, fun d hd => ?_, ?_⟩
  · obtain ⟨d, hd, herror⟩ := hholding.exists_error herrors
    exact ⟨d, hperm.mem_iff.2 (List.mem_append_left _ hd), herror, htaken d hd⟩
  · rcases List.mem_append.1 (hperm.mem_iff.1 hd) with hd | hd
    · exact .inr (htaken d hd)
    · exact .inl (hholding.stopped d (Option.mem_toList.1 hd))
  · -- No report that was taken is of the queue's own making.
    have hnone : q.reports.countP (·.code = .tooManyErrors) = 0 := by
      refine List.countP_eq_zero.2 fun d hd hcode => hinternal ?_
      rw [← htaken d hd, of_decide_eq_true hcode]
      rfl
    rw [hperm.countP_eq, contents, List.countP_append, hnone, Nat.zero_add]
    exact Nat.le_trans List.countP_le_length (Option.length_toList_le)

end LateBind

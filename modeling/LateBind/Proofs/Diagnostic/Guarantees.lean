import LateBind.Proofs.Diagnostic.Requests

/-!
# What a guarantee stands for

Emitting a report answers with a guarantee, whatever became of the report. A queue that turns a
report away has an error already, and one that takes an error counts it. So the guarantee is empty
only where a warning is emitted and no error was offered since the last flush.
-/

namespace LateBind

namespace Queue

variable {q : Queue} {d : Diagnostic} {ds : List Diagnostic}

/-! ## 1. Queues that have an error -/

theorem hasErrors_eq_some_iff {g : Guarantee} : q.hasErrors = some g ↔ 0 < q.errors := by
  rw [hasErrors, Guarantee.ofErrorCount]
  split
  next h => simp [h]
  next h => simp [h]

theorem errors_pos_of_limitReached (h : q.limitReached = true) : 0 < q.errors := by
  rw [limitReached, Bool.and_eq_true, decide_eq_true_iff, decide_eq_true_iff] at h
  omega

theorem Holding.errors_pos_iff (h : q.Holding ds) :
    0 < q.errors ↔ ∃ r ∈ q.reports, r.isError = true := by
  rw [h.counted, List.countP_pos_iff]

-- The last report is an error too, but it is there only behind others.
theorem Holding.exists_error_contents (h : q.Holding ds) (hq : q.Consistent) :
    (∃ r ∈ q.contents, r.isError = true) ↔ 0 < q.errors := by
  constructor
  · intro ⟨r, hr, herror⟩
    rcases List.mem_append.1 hr with hr | hr
    · exact h.errors_pos_iff.2 ⟨r, hr, herror⟩
    · exact errors_pos_of_limitReached (hq.stopped r (Option.mem_toList.1 hr)).1
  · intro hpos
    obtain ⟨r, hr, herror⟩ := h.errors_pos_iff.1 hpos
    exact ⟨r, List.mem_append_left _ hr, herror⟩

/-- What is turned away finds an error in the queue: one it repeats, or those that reach the
limit. -/
theorem Holding.errors_pos_of_add (h : q.Holding ds) (hq : q.Consistent)
    (hadd : (q.add d).1 = false) : 0 < q.errors := by
  rcases q.add_cases d with ⟨hlimit, -⟩ | ⟨-, hrepeats, -⟩ | ⟨-, -, htaken⟩
  · exact errors_pos_of_limitReached hlimit
  · obtain ⟨-, e, he, hsame⟩ := hq.repeats_iff.1 hrepeats
    exact h.errors_pos_iff.2 ⟨e, he, hsame.1⟩
  · rw [htaken] at hadd
    cases hadd

end Queue

/-! ## 2. Guarantees -/

/-- **A guarantee stands for an error that was offered.** Whatever was asked of a queue so far, once
a report is emitted the queue has errors exactly if that report or one offered since the last flush
is an error, and exactly then it holds a report that is an error. So it does whenever an error is
emitted, taken or not, and whenever what is emitted is turned away. -/
theorem guarantee_stands_iff (config : QueueConfig) (rs : List Request) (d : Diagnostic) :
    let q := (Queue.ofConfig config).serveAll rs
    let (guarantee, after) := q.emit d
    (after.hasErrors = some guarantee ↔ ∃ r ∈ pending rs ++ [d], r.isError = true) ∧
    ((∃ r ∈ after.contents, r.isError = true) ↔ ∃ r ∈ pending rs ++ [d], r.isError = true) ∧
    (d.isError = true ∨ (q.add d).1 = false →
      after.hasErrors = some guarantee ∧ ∃ r ∈ after.contents, r.isError = true) := by
  intro q
  have hq : q = (Queue.ofConfig config).extend (pending rs) := Queue.serveAll_eq_extend config rs
  have hafter : (q.add d).2 = (Queue.ofConfig config).extend (pending rs ++ [d]) := by
    rw [hq, Queue.extend_append]
    rfl
  have hholding := Queue.holding_extend config (pending rs ++ [d])
  have hconsistent := (Queue.consistent_ofConfig config).extend (pending rs ++ [d])
  rw [← hafter] at hholding hconsistent
  -- The count is positive just if an error was offered.
  have hoffered : 0 < (q.add d).2.errors ↔ ∃ r ∈ pending rs ++ [d], r.isError = true := by
    have hnone := Queue.errors_extend_eq_zero (pending rs ++ [d])
      (q := Queue.ofConfig config) rfl rfl
    rw [← hafter] at hnone
    rw [Nat.pos_iff_ne_zero, ne_eq, hnone]
    simp
  have hcontents := hholding.exists_error_contents hconsistent
  refine ⟨Queue.hasErrors_eq_some_iff.trans hoffered, hcontents.trans hoffered, fun hd => ?_⟩
  have hpos : 0 < (q.add d).2.errors := by
    rcases hd with herror | hadd
    · exact hoffered.2 ⟨d, by simp, herror⟩
    · apply Nat.lt_of_lt_of_le _ (q.errors_le_add d)
      rw [hq] at hadd ⊢
      exact (Queue.holding_extend config _).errors_pos_of_add
        ((Queue.consistent_ofConfig config).extend _) hadd
  exact ⟨Queue.hasErrors_eq_some_iff.2 hpos, hcontents.2 hpos⟩

/-- A warning emitted into a new queue is answered with a guarantee, and the queue has no error. -/
theorem guarantee_for_warning :
    let (guarantee, after) := (Queue.ofConfig {}).emit
      { Diagnostic.ofCode .nameRebound with severity := .warning }
    after.hasErrors ≠ some guarantee ∧ ¬ ∃ r ∈ after.contents, r.isError = true := by
  decide

end LateBind

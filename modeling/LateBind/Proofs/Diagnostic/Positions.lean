import LateBind.Proofs.Diagnostic.Requests
import LateBind.Proofs.Diagnostic.Sorting

/-!
# Reports in the order of the text

A queue hands out all it holds, by the start of the primary span, and reports with one start in their
order of arrival. A report without a primary span is placed at the last offset there is, so it comes
after all that start before that offset. With those that start there it shares its place, and comes
before the ones that arrived after it.
-/

namespace LateBind

/-- The last offset that a span can start at. -/
def lastStart : UInt32 := 4294967295

namespace Diagnostic

variable {a b : Diagnostic} {ds : List Diagnostic}

/-- Where the primary span starts. -/
def start? (d : Diagnostic) : Option UInt32 := d.primarySpan?.map (·.start)

theorem position_of_start? {s : UInt32} (h : a.start? = some s) : a.position = s.toNat := by
  obtain ⟨span, hspan, rfl⟩ := Option.map_eq_some_iff.1 h
  rw [position, hspan]

theorem position_of_start?_eq_none (h : a.start? = none) : a.position = lastStart.toNat := by
  rw [position, Option.map_eq_none_iff.1 h]
  rfl

-- The last place is shared.
theorem position_eq_last_iff :
    a.position = lastStart.toNat ↔ a.start? = none ∨ a.start? = some lastStart := by
  constructor
  · intro h
    cases hs : a.start? with
    | none => exact .inl rfl
    | some s =>
      rw [position_of_start? hs] at h
      exact .inr (congrArg some (UInt32.toNat_inj.1 h))
  · rintro (h | h)
    · exact position_of_start?_eq_none h
    · exact position_of_start? h

theorem position_le (d : Diagnostic) : d.position ≤ lastStart.toNat := by
  cases hs : d.start? with
  | none => exact Nat.le_of_eq (position_of_start?_eq_none hs)
  | some s =>
    rw [position_of_start? hs]
    exact Nat.le_of_lt_succ s.toNat_lt

/-! ## 1. What sorting keeps -/

/-- Reports at one position are sorted already. -/
theorem sorted_eq_self {k : Nat} (h : ∀ d ∈ ds, d.position = k) : sorted ds = ds := by
  have hall : ∀ es : List Diagnostic, (∀ d ∈ es, d.position = k) →
      es.filter (·.position = k) = es := fun es hes =>
    List.filter_eq_self.2 fun d hd => decide_eq_true (hes d hd)
  rw [← hall (sorted ds) fun d hd => h d ((perm_sorted ds).mem_iff.1 hd), filter_position_sorted,
    hall ds h]

/-- Reports with one start keep their order, and so do those without a primary span. -/
theorem filter_start?_sorted (ds : List Diagnostic) (s : Option UInt32) :
    (sorted ds).filter (·.start? = s) = ds.filter (·.start? = s) := by
  rw [filter_sorted]
  have hstart : ∀ d ∈ ds.filter (·.start? = s), d.start? = s := fun d hd =>
    of_decide_eq_true (List.mem_filter.1 hd).2
  cases s with
  | none => exact sorted_eq_self fun d hd => position_of_start?_eq_none (hstart d hd)
  | some s => exact sorted_eq_self fun d hd => position_of_start? (hstart d hd)

theorem pairwise_start?_sorted (ds : List Diagnostic) :
    (sorted ds).Pairwise fun a b => ∀ s ∈ a.start?, ∀ t ∈ b.start?, s ≤ t := by
  refine (pairwise_sorted ds).imp fun {a b} hle s hs t ht => ?_
  rw [position_of_start? hs, position_of_start? ht] at hle
  exact UInt32.le_iff_toNat_le.2 hle

/-! ## 2. Reports without a place -/

/-- No report without a primary span stands before one that starts at the last offset. -/
def Clear (ds : List Diagnostic) : Prop :=
  ds.Pairwise fun a b => a.start? = none → b.start? ≠ some lastStart

/-- Whether a list is clear depends only on what stands in the last place. -/
theorem clear_iff_filter : Clear ds ↔ Clear (ds.filter (·.position = lastStart.toNat)) := by
  unfold Clear
  rw [List.pairwise_filter]
  constructor
  · exact fun h => h.imp fun h _ _ => h
  · refine fun h => h.imp fun {a b} h ha hb => ?_
    exact h (decide_eq_true (position_of_start?_eq_none ha)) (decide_eq_true (position_of_start? hb))
      ha hb

theorem clear_sorted_iff : Clear (sorted ds) ↔ Clear ds := by
  rw [clear_iff_filter, filter_position_sorted, ← clear_iff_filter]

-- After a report without a primary span only the last place is left.
theorem start?_sorted (ds : List Diagnostic) :
    (sorted ds).Pairwise fun a b => a.start? = none → b.start? = none ∨ b.start? = some lastStart := by
  refine (pairwise_sorted ds).imp fun {a b} hle ha => position_eq_last_iff.1 ?_
  rw [position_of_start?_eq_none ha] at hle
  exact Nat.le_antisymm b.position_le hle

/-- Sorted reports end with those that have no primary span just if the list is clear. -/
theorem pairwise_none_sorted_iff :
    ((sorted ds).Pairwise fun a b => a.start? = none → b.start? = none) ↔ Clear ds := by
  rw [← clear_sorted_iff]
  constructor
  · intro h
    refine h.imp fun {a b} h ha hb => ?_
    rw [h ha] at hb
    cases hb
  · intro h
    refine ((start?_sorted ds).and h).imp fun {a b} h ha => ?_
    exact (h.1 ha).resolve_right (h.2 ha)

end Diagnostic

open Diagnostic in
/-- **Reports are handed out in the order of the text.** Whatever was asked of a queue so far, it hands
out just what it holds: reports that have a primary span by its start, and reports with one start, or
without any, in the order in which they were queued. Those without a primary span come after all that
have one, except that one of them may come before a report that starts at the last offset. They come
after all of them exactly if none of them was queued before such a report. -/
theorem flushed_in_order (config : QueueConfig) (rs : List Request) :
    let q := (Queue.ofConfig config).serveAll rs
    q.flush.1.Perm q.contents ∧
    (q.flush.1.Pairwise fun a b => ∀ s ∈ a.start?, ∀ t ∈ b.start?, s ≤ t) ∧
    (∀ s : Option UInt32, q.flush.1.filter (·.start? = s) = q.contents.filter (·.start? = s)) ∧
    (q.flush.1.Pairwise fun a b =>
      a.start? = none → b.start? = none ∨ b.start? = some lastStart) ∧
    ((q.flush.1.Pairwise fun a b => a.start? = none → b.start? = none) ↔
      q.contents.Pairwise fun a b => a.start? = none → b.start? ≠ some lastStart) := by
  intro q
  exact ⟨perm_sorted _, pairwise_start?_sorted _, filter_start?_sorted _, start?_sorted _,
    pairwise_none_sorted_iff⟩

/-- A report without a primary span, queued before one that starts at the last offset, is handed out
before it. -/
theorem flushed_before_last :
    let q := (Queue.ofConfig {}).serveAll
      [.add (.ofCode .unresolvedCall),
        .add ((Diagnostic.ofCode .unresolvedCall).withLabel ⟨lastStart, lastStart⟩ "here")]
    ¬ q.flush.1.Pairwise fun a b => a.start? = none → b.start? = none := by
  intro q h
  have hsame : q.flush.1 = q.contents :=
    Diagnostic.sorted_eq_self (k := lastStart.toNat) (by decide)
  rw [hsame] at h
  exact absurd h (by decide)

end LateBind

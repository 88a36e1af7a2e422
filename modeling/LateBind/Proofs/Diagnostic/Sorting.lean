import LateBind.Diagnostic.Basic

/-!
# Reports by position

Sorting reports loses none of them and keeps those at one position in their order. A list of reports
that goes by position is known once it is known for each position what is there, so picking some
reports out of a sorted list comes to sorting what is picked.
-/

namespace LateBind.Diagnostic

theorem perm_sorted (ds : List Diagnostic) : (sorted ds).Perm ds := List.mergeSort_perm _ _

theorem position_trans (a b c : Diagnostic) (hab : decide (a.position ≤ b.position) = true)
    (hbc : decide (b.position ≤ c.position) = true) : decide (a.position ≤ c.position) = true := by
  simp only [decide_eq_true_eq] at *
  omega

theorem position_total (a b : Diagnostic) :
    (decide (a.position ≤ b.position) || decide (b.position ≤ a.position)) = true := by
  simp only [Bool.or_eq_true, decide_eq_true_eq]
  omega

/-- A sorted list goes by position. -/
theorem pairwise_sorted (ds : List Diagnostic) :
    (sorted ds).Pairwise fun a b => a.position ≤ b.position :=
  (List.pairwise_mergeSort position_trans position_total ds).imp of_decide_eq_true

/-- Reports at one position keep their order. -/
theorem filter_position_sorted (ds : List Diagnostic) (k : Nat) :
    (sorted ds).filter (·.position = k) = ds.filter (·.position = k) := by
  have hclass : (ds.filter (·.position = k)).Pairwise
      fun a b => decide (a.position ≤ b.position) = true := by
    refine List.pairwise_filter.2 (List.pairwise_of_forall fun a b ha hb => ?_)
    simp only [decide_eq_true_eq] at *
    omega
  have hsublist : (ds.filter (·.position = k)).Sublist (sorted ds) :=
    List.sublist_mergeSort position_trans position_total hclass List.filter_sublist
  -- What is at position `k` is all there, and there is no more of it than before.
  have hfilter := hsublist.filter (·.position = k)
  simp only [List.filter_filter, Bool.and_self] at hfilter
  have hlength := ((perm_sorted ds).filter (·.position = k)).length_eq
  exact (hfilter.eq_of_length hlength.symm).symm

/-- What goes by position is known by what is at each position. -/
theorem eq_of_filter_position {ds es : List Diagnostic}
    (hds : ds.Pairwise fun a b => a.position ≤ b.position)
    (hes : es.Pairwise fun a b => a.position ≤ b.position)
    (h : ∀ k, ds.filter (·.position = k) = es.filter (·.position = k)) : ds = es := by
  induction ds generalizing es with
  | nil =>
    cases es with
    | nil => rfl
    | cons e es =>
      have he := h e.position
      simp at he
  | cons d ds ih =>
    cases es with
    | nil =>
      have hd := h d.position
      simp at hd
    | cons e es =>
      have hd : d ∈ e :: es := by
        have hmem : d ∈ (e :: es).filter (·.position = d.position) := by
          rw [← h d.position]
          simp
        exact (List.mem_filter.1 hmem).1
      have he : e ∈ d :: ds := by
        have hmem : e ∈ (d :: ds).filter (·.position = e.position) := by
          rw [h e.position]
          simp
        exact (List.mem_filter.1 hmem).1
      rw [List.pairwise_cons] at hds hes
      -- Both lists begin with what comes first.
      have hposition : d.position = e.position := by
        apply Nat.le_antisymm
        · rcases List.mem_cons.1 he with rfl | he
          · exact Nat.le_refl _
          · exact hds.1 e he
        · rcases List.mem_cons.1 hd with rfl | hd
          · exact Nat.le_refl _
          · exact hes.1 d hd
      have hhead := h d.position
      rw [List.filter_cons_of_pos (by simp), List.filter_cons_of_pos (by simp [hposition])] at hhead
      obtain ⟨rfl, -⟩ := List.cons.inj hhead
      congr 1
      refine ih hds.2 hes.2 fun k => ?_
      have hk := h k
      by_cases hdk : d.position = k
      · rw [List.filter_cons_of_pos (by simp [hdk]), List.filter_cons_of_pos (by simp [hdk])] at hk
        exact (List.cons.inj hk).2
      · rwa [List.filter_cons_of_neg (by simp [hdk]), List.filter_cons_of_neg (by simp [hdk])] at hk

/-- To pick reports out of a sorted list is to sort those that are picked. -/
theorem filter_sorted (p : Diagnostic → Bool) (ds : List Diagnostic) :
    (sorted ds).filter p = sorted (ds.filter p) := by
  refine eq_of_filter_position ((pairwise_sorted ds).filter p) (pairwise_sorted _) fun k => ?_
  rw [filter_position_sorted, List.filter_filter, List.filter_filter]
  simp only [Bool.and_comm]
  rw [← List.filter_filter, filter_position_sorted, List.filter_filter]

end LateBind.Diagnostic

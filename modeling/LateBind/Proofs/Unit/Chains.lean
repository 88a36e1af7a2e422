import LateBind.Unit.Nesting
import Mathlib.Data.List.Nodup
import Mathlib.Data.List.Perm.Subperm

/-!
# Chains

A map from functions to functions leads from each of them along a chain, which ends where a function
is not mapped, or never. A chain that ends passes no function twice, so it has no more links than
there are functions. The walk to a root, which is bounded by their number, stops short of no end.
-/

namespace LateBind

/-- The map leads from `c` to `f` in `n` steps. -/
inductive Climbs (parent : FunctionId → Option FunctionId) :
    FunctionId → Nat → FunctionId → Prop where
  | here {c : FunctionId} : Climbs parent c 0 c
  | up {c p f : FunctionId} {n : Nat} :
      parent c = some p → Climbs parent p n f → Climbs parent c (n + 1) f

namespace Climbs

variable {parent : FunctionId → Option FunctionId} {c f g : FunctionId} {m n : Nat}

theorem trans (h : Climbs parent c m g) (h' : Climbs parent g n f) :
    Climbs parent c (m + n) f := by
  induction h with
  | here => rwa [Nat.zero_add]
  | @up _ _ _ m hp _ ih =>
    rw [Nat.add_right_comm]
    exact .up hp (ih h')

/-- A chain has one end, and there is one number of steps to it. -/
theorem end_unique (h : Climbs parent c n f) (hf : parent f = none) (h' : Climbs parent c m g)
    (hg : parent g = none) : n = m ∧ f = g := by
  induction h generalizing m with
  | here =>
    cases h' with
    | here => exact ⟨rfl, rfl⟩
    | up hp => rw [hf] at hp; cases hp
  | up hp _ ih =>
    cases h' with
    | here => rw [hg] at hp; cases hp
    | up hp' h' =>
      rw [hp] at hp'
      cases hp'
      obtain ⟨rfl, rfl⟩ := ih hf h'
      exact ⟨rfl, rfl⟩

/-- Whoever comes back to a function never comes to an end. -/
theorem not_end_of_cycle (h : Climbs parent c m g) (hcycle : Climbs parent g (n + 1) g)
    {k : Nat} (hf : Climbs parent c k f) : parent f ≠ none := by
  intro hend
  -- From `g` on there would be two numbers of steps to the end.
  induction h generalizing k with
  | here =>
    have := (hf.end_unique hend (hcycle.trans hf) hend).1
    omega
  | up hp _ ih =>
    cases hf with
    | here => rw [hend] at hp; cases hp
    | up hp' hf =>
      rw [hp] at hp'
      cases hp'
      exact ih hcycle hf

-- The functions on the way to an end, no two of them the same.
theorem exists_passed (h : Climbs parent c n f) (hf : parent f = none) :
    ∃ fs : List FunctionId, fs.length = n + 1 ∧ fs.Nodup ∧
      ∀ g ∈ fs, ∃ k, k ≤ n ∧ Climbs parent g k f := by
  induction h with
  | here => exact ⟨[_], rfl, List.nodup_singleton _, by simpa using .here⟩
  | @up c p f n hp h ih =>
    obtain ⟨fs, hlength, hnodup, hfs⟩ := ih hf
    -- All that come after `c` are nearer to the end.
    have hc : c ∉ fs := fun hc => by
      obtain ⟨k, hk, hck⟩ := hfs c hc
      have := (hck.end_unique hf (.up hp h) hf).1
      omega
    refine ⟨c :: fs, by rw [List.length_cons, hlength], List.nodup_cons.2 ⟨hc, hnodup⟩, ?_⟩
    intro g hg
    rcases List.mem_cons.1 hg with rfl | hg
    · exact ⟨n + 1, Nat.le_refl _, .up hp h⟩
    · obtain ⟨k, hk, hgk⟩ := hfs g hg
      exact ⟨k, Nat.le_succ_of_le hk, hgk⟩

/-- In a table of `size` functions, a chain that ends in it has fewer links than that. -/
theorem lt_size {size : Nat} (hparent : ∀ c p, parent c = some p → c.index < size)
    (h : Climbs parent c n f) (hf : parent f = none) (hsize : f.index < size) : n < size := by
  obtain ⟨fs, hlength, hnodup, hfs⟩ := h.exists_passed hf
  -- Different functions have different indices, all of them in the table.
  have hindex : Function.Injective FunctionId.index := fun a b h => by cases a; cases b; simp_all
  have hsub : fs.map (·.index) ⊆ List.range size := by
    intro i hi
    obtain ⟨g, hg, rfl⟩ := List.mem_map.1 hi
    obtain ⟨k, -, hgk⟩ := hfs g hg
    rw [List.mem_range]
    cases hgk with
    | here => exact hsize
    | up hp => exact hparent _ _ hp
  have hle := ((hnodup.map hindex).subperm hsub).length_le
  rw [List.length_map, List.length_range, hlength] at hle
  omega

end Climbs

variable {parent : FunctionId → Option FunctionId} {isRoot : FunctionId → Bool} {c : FunctionId}

/-- What the walk finds, if it may take fewer than `fuel` steps. -/
theorem reachesRoot_iff {fuel : Nat} : reachesRoot parent isRoot fuel c = true ↔
    ∃ n f, n < fuel ∧ Climbs parent c n f ∧ parent f = none ∧ isRoot f = true := by
  induction fuel generalizing c with
  | zero => simp [reachesRoot]
  | succ fuel ih =>
    rw [reachesRoot]
    cases hp : parent c with
    | some p =>
      show reachesRoot parent isRoot fuel p = true ↔ _
      rw [ih]
      constructor
      · rintro ⟨n, f, hn, h, hend⟩
        exact ⟨n + 1, f, Nat.succ_lt_succ hn, .up hp h, hend⟩
      · rintro ⟨n, f, hn, h, hend⟩
        cases h with
        | here => rw [hp] at hend; cases hend.1
        | @up _ _ _ n hp' h =>
          rw [hp] at hp'
          cases hp'
          exact ⟨n, f, Nat.lt_of_succ_lt_succ hn, h, hend⟩
    | none =>
      constructor
      · exact fun hc => ⟨0, c, Nat.succ_pos fuel, .here, hp, hc⟩
      · rintro ⟨n, f, -, h, -, hf⟩
        cases h with
        | here => exact hf
        | up hp' => rw [hp] at hp'; cases hp'

/-- The walk over a table takes enough steps: how long the chain is does not matter. -/
theorem reachesRoot_iff_of_size {size : Nat}
    (hparent : ∀ c p, parent c = some p → c.index < size)
    (hroot : ∀ f, isRoot f = true → f.index < size) {fuel : Nat} (hfuel : size ≤ fuel) :
    reachesRoot parent isRoot fuel c = true ↔
      ∃ n f, Climbs parent c n f ∧ parent f = none ∧ isRoot f = true := by
  rw [reachesRoot_iff]
  constructor
  · rintro ⟨n, f, -, h⟩
    exact ⟨n, f, h⟩
  · rintro ⟨n, f, h, hend, hf⟩
    have hn : n < size := h.lt_size hparent hend (hroot f hf)
    exact ⟨n, f, Nat.lt_of_lt_of_le hn hfuel, h, hend, hf⟩

/-- Where every chain ends, going along the map ends. -/
theorem wellFounded_of_climbs
    (h : ∀ c p, parent c = some p → ∃ n f, Climbs parent c n f ∧ parent f = none) :
    WellFounded fun p c => parent c = some p := by
  have hacc : ∀ {c n f}, Climbs parent c n f → parent f = none →
      Acc (fun p c => parent c = some p) c := by
    intro c n f hc hf
    induction hc with
    | here => exact ⟨_, fun p hp => by rw [hf] at hp; cases hp⟩
    | up hp _ ih =>
      refine ⟨_, fun q hq => ?_⟩
      rw [hp] at hq
      cases hq
      exact ih hf
  refine ⟨fun c => ?_⟩
  cases hp : parent c with
  | none => exact hacc .here hp
  | some p =>
    obtain ⟨n, f, hc, hf⟩ := h c p hp
    exact hacc hc hf

end LateBind

/-!
Finite maps from names to values, kept sorted by name. Names are compared code point by code
point, which is also the order of their UTF-8 bytes. The order is part of the type, so a table's
entries show its bindings and not the order they were made in.
-/
namespace LateBind

structure Table (α : Type) where
  entries : List (String × α)
  sorted : entries.Pairwise (·.1 < ·.1)

namespace Table

variable {α β : Type}

def empty : Table α := ⟨[], .nil⟩

instance : Inhabited (Table α) := ⟨empty⟩

def get? (t : Table α) (n : String) : Option α := (t.entries.find? (·.1 = n)).map (·.2)

def contains (t : Table α) (n : String) : Bool := (t.get? n).isSome

def keys (t : Table α) : List String := t.entries.map (·.1)

/-- Binds `n`, in place of an earlier binding if there is one. -/
def insert (t : Table α) (n : String) (v : α) : Table α where
  entries := t.entries.filter (·.1 < n) ++ (n, v) :: t.entries.filter (n < ·.1)
  sorted := by
    refine List.pairwise_append.2 ⟨t.sorted.filter _, List.pairwise_cons.2 ⟨?_, t.sorted.filter _⟩, ?_⟩
    · intro e he
      simpa using (List.mem_filter.1 he).2
    · intro a ha b hb
      have ha : a.1 < n := by simpa using (List.mem_filter.1 ha).2
      rcases List.mem_cons.1 hb with rfl | hb
      · exact ha
      · exact String.lt_trans ha (by simpa using (List.mem_filter.1 hb).2)

def erase (t : Table α) (n : String) : Table α where
  entries := t.entries.filter (·.1 ≠ n)
  sorted := t.sorted.filter _

def map (t : Table α) (f : α → β) : Table β where
  entries := t.entries.map fun e => (e.1, f e.2)
  sorted := List.pairwise_map.2 t.sorted

/-! ## What is found after a change -/

@[simp] theorem get?_empty (n : String) : (empty : Table α).get? n = none := rfl

/-- A filter that keeps the entries of `m` does not change what is found for `m`. -/
theorem find?_filter_of_keeps {l : List (String × α)} {p : String × α → Bool} {m : String}
    (h : ∀ e, e.1 = m → p e = true) : (l.filter p).find? (·.1 = m) = l.find? (·.1 = m) := by
  rw [List.find?_filter]
  congr 1
  funext e
  by_cases he : e.1 = m
  · simp [he, h e he]
  · simp [he]

/-- A filter that drops the entries of `m` leaves none to be found. -/
theorem find?_filter_of_drops {l : List (String × α)} {p : String × α → Bool} {m : String}
    (h : ∀ e, e.1 = m → p e = false) : (l.filter p).find? (·.1 = m) = none := by
  rw [List.find?_eq_none]
  intro e he hm
  have := (List.mem_filter.1 he).2
  rw [h e (by simpa using hm)] at this
  exact Bool.noConfusion this

theorem get?_insert (t : Table α) (n m : String) (v : α) :
    (t.insert n v).get? m = if m = n then some v else t.get? m := by
  unfold get? insert
  rw [List.find?_append, List.find?_cons]
  rcases Std.lt_trichotomy m n with h | rfl | h
  · have hne : m ≠ n := fun e => String.lt_irrefl n (e ▸ h)
    rw [find?_filter_of_keeps fun e he => by simpa [he] using h,
      find?_filter_of_drops fun e he => by simpa [he] using String.lt_asymm h]
    simp [hne, hne.symm]
  · rw [find?_filter_of_drops fun e he => by rw [he]; exact decide_eq_false (String.lt_irrefl _)]
    simp
  · have hne : m ≠ n := fun e => String.lt_irrefl n (e ▸ h)
    rw [find?_filter_of_drops fun e he => by simpa [he] using String.lt_asymm h,
      find?_filter_of_keeps fun e he => by simpa [he] using h]
    simp [hne, hne.symm]

theorem get?_erase (t : Table α) (n m : String) :
    (t.erase n).get? m = if m = n then none else t.get? m := by
  unfold get? erase
  by_cases h : m = n
  · rw [find?_filter_of_drops fun e he => by simp [he, h]]
    simp [h]
  · rw [find?_filter_of_keeps fun e he => by simp [he, h]]
    simp [h]

theorem contains_insert {t : Table α} {n m : String} {v : α} :
    (t.insert n v).contains m = true ↔ t.contains m = true ∨ m = n := by
  rw [contains, contains, get?_insert]
  split
  next h => simp [h]
  next h => simp [h]

theorem get?_map (t : Table α) (f : α → β) (n : String) : (t.map f).get? n = (t.get? n).map f := by
  simp only [get?, map, List.find?_map, Option.map_map]
  rfl

end Table

end LateBind

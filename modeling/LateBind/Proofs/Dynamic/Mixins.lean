import LateBind.Proofs.Dynamic.Transparency
import LateBind.Proofs.Text.ByteOrder
import Mathlib.Data.List.Nodup
import Mathlib.Data.List.Perm.Basic

/-!
# Mixing in is binding one by one

A mixin binds all properties of its source at once, and is refused as a whole or not at all. Where
it is not refused it leaves just what is left when the same properties are bound one after another,
in whatever order: properties, tokens and which of them are valid.
-/

namespace LateBind

/-! ## 1. Tables -/

namespace Table

variable {α : Type} {t u : Table α} {n m : String} {v w : α}

theorem nodup_keys (t : Table α) : t.keys.Nodup :=
  List.pairwise_map.2 (t.sorted.imp fun h => String.ne_of_lt h)

theorem mem_entries_iff : (n, v) ∈ t.entries ↔ t.get? n = some v := by
  constructor
  · intro h
    have hsome : (t.entries.find? (·.1 = n)).isSome := List.find?_isSome.2 ⟨_, h, by simp⟩
    obtain ⟨e, he⟩ := Option.isSome_iff_exists.1 hsome
    have hname : e.1 = n := by simpa using List.find?_some he
    -- No two entries have one name.
    have hsame : e = (n, v) :=
      List.inj_on_of_nodup_map t.nodup_keys (List.mem_of_find?_eq_some he) h hname
    rw [get?, he, hsame, Option.map_some]
  · intro h
    obtain ⟨e, he, rfl⟩ := Option.map_eq_some_iff.1 h
    have hname : e.1 = n := by simpa using List.find?_some he
    exact hname ▸ List.mem_of_find?_eq_some he

theorem mem_keys_iff : n ∈ t.keys ↔ t.contains n = true := by
  rw [keys, List.mem_map, contains, Option.isSome_iff_exists]
  constructor
  · rintro ⟨e, he, rfl⟩
    exact ⟨e.2, mem_entries_iff.1 he⟩
  · rintro ⟨v, hv⟩
    exact ⟨(n, v), mem_entries_iff.2 hv, rfl⟩

/-- A table is known by what is found in it. -/
theorem ext (h : ∀ n, t.get? n = u.get? n) : t = u := by
  have hnodup : ∀ t : Table α, t.entries.Nodup := fun t => t.nodup_keys.of_map
  have hperm : t.entries.Perm u.entries := by
    refine (List.perm_ext_iff_of_nodup (hnodup t) (hnodup u)).2 fun e => ?_
    rw [mem_entries_iff (n := e.1) (v := e.2), mem_entries_iff (n := e.1) (v := e.2), h]
  have hentries : t.entries = u.entries :=
    hperm.eq_of_pairwise (fun a b _ _ hab hba => absurd hba (String.lt_asymm hab)) t.sorted u.sorted
  cases t
  cases u
  cases hentries
  rfl

theorem contains_first {e : String × α} {rest : List (String × α)} (ht : t.entries = e :: rest) :
    t.contains e.1 = true := by
  rw [← mem_keys_iff, keys, ht]
  exact List.mem_cons_self

-- The name of the first entry comes before all others.
theorem first_of_entries {e : String × α} {rest : List (String × α)} (ht : t.entries = e :: rest)
    (hn : t.contains n = true) : n = e.1 ∨ utf8Bytes e.1 < utf8Bytes n := by
  rw [← mem_keys_iff, keys, ht, List.map_cons, List.mem_cons] at hn
  refine hn.imp_right fun hn => ?_
  obtain ⟨d, hd, rfl⟩ := List.mem_map.1 hn
  have hsorted := t.sorted
  rw [ht] at hsorted
  exact lt_iff_utf8Bytes_lt.1 ((List.pairwise_cons.1 hsorted).1 d hd)

theorem insert_comm (t : Table α) (hne : n ≠ m) (v w : α) :
    (t.insert n v).insert m w = (t.insert m w).insert n v := by
  refine ext fun k => ?_
  simp only [get?_insert]
  by_cases hn : k = n
  · subst hn
    simp [hne]
  · simp [hn]

-- What was bound last is found first.
theorem get?_foldl_insert_of_nodup {es : List (String × α)} (hes : (es.map (·.1)).Nodup)
    (t : Table α) (n : String) :
    (es.foldl (fun t e => t.insert e.1 e.2) t).get? n =
      ((es.find? (·.1 = n)).map (·.2)).or (t.get? n) := by
  induction es generalizing t with
  | nil => rfl
  | cons e rest ih =>
    obtain ⟨he, hrest⟩ := List.nodup_cons.1 hes
    rw [List.foldl_cons, ih hrest, get?_insert, List.find?_cons]
    by_cases hn : n = e.1
    · subst hn
      have hnone : rest.find? (·.1 = e.1) = none := by
        rw [List.find?_eq_none]
        intro d hd hname
        exact he (List.mem_map.2 ⟨d, hd, by simpa using hname⟩)
      simp [hnone]
    · simp [hn, Ne.symm hn]

end Table

/-! ## 2. One object -/

namespace Object

variable {x : Object} {es : List (String × Value)} {incoming : Table Value}

/-- Binds the properties `es` one after another. -/
def defineEach (x : Object) : List (String × Value) → Object × List TokenId
  | [] => (x, [])
  | e :: rest =>
      let first := x.define e.1 e.2
      let last := first.1.defineEach rest
      (last.1, last.2 ++ first.2)

theorem define_comm {n m : String} (x : Object) (hne : n ≠ m) (v w : Value) :
    ((x.define n v).1.define m w).1 = ((x.define m w).1.define n v).1 := by
  simp only [define, Table.insert_comm _ hne]

theorem defineEach_fst (x : Object) (es : List (String × Value)) :
    (x.defineEach es).1 = es.foldl (fun x e => (x.define e.1 e.2).1) x := by
  induction es generalizing x with
  | nil => rfl
  | cons e rest ih => exact ih _

-- In the order of the source the properties are bound as a mixin binds them.
theorem foldl_define_entries (x : Object) (es : List (String × Value)) :
    es.foldl (fun x e => (x.define e.1 e.2).1) x =
      { x with
        properties := es.foldl (fun t e => t.insert e.1 e.2) x.properties
        tokens := (es.map (·.1)).foldl (fun t n => t.insert n []) x.tokens } := by
  induction es generalizing x with
  | nil => rfl
  | cons e rest ih => exact ih _

/-- Whatever the order, the object comes out as it does from a mixin. -/
theorem defineEach_eq_mixin (hes : es.Perm incoming.entries) :
    (x.defineEach es).1 = (x.mixin incoming).1 := by
  have hnodup : (es.map (·.1)).Nodup := (hes.map _).nodup_iff.2 incoming.nodup_keys
  have hcomm : ∀ a ∈ es, ∀ b ∈ es, ∀ z : Object,
      ((z.define a.1 a.2).1.define b.1 b.2).1 = ((z.define b.1 b.2).1.define a.1 a.2).1 := by
    intro a ha b hb z
    by_cases hname : a.1 = b.1
    · rw [List.inj_on_of_nodup_map hnodup ha hb hname]
    · exact z.define_comm hname a.2 b.2
  rw [defineEach_fst, hes.foldl_eq' hcomm, foldl_define_entries]
  rfl

-- To bind one name does not change which tokens are out for another.
theorem defineEach_revoked (hes : (es.map (·.1)).Nodup) :
    (x.defineEach es).2.Perm (es.flatMap fun e => x.issued e.1) := by
  induction es generalizing x with
  | nil => exact .nil
  | cons e rest ih =>
    obtain ⟨he, hrest⟩ := List.nodup_cons.1 hes
    have hissued : rest.flatMap (fun d => (x.define e.1 e.2).1.issued d.1) =
        rest.flatMap fun d => x.issued d.1 := by
      refine List.flatMap_congr fun d hd => ?_
      have hne : d.1 ≠ e.1 := fun h => he (List.mem_map.2 ⟨d, hd, h⟩)
      rw [define, issued_insert, if_neg hne]
    have hih := ih (x := (x.define e.1 e.2).1) hrest
    rw [hissued] at hih
    rw [List.flatMap_cons]
    exact (hih.append_right _).trans List.perm_append_comm

theorem defineEach_perm_mixin (hes : es.Perm incoming.entries) :
    (x.defineEach es).2.Perm (x.mixin incoming).2 := by
  have hnodup : (es.map (·.1)).Nodup := (hes.map _).nodup_iff.2 incoming.nodup_keys
  refine (defineEach_revoked hnodup).trans ?_
  rw [mixin, Table.keys, List.flatMap_map]
  exact hes.flatMap_right _

theorem get?_mixin (x : Object) (incoming : Table Value) (n : String) :
    (x.mixin incoming).1.properties.get? n = (incoming.get? n).or (x.properties.get? n) :=
  Table.get?_foldl_insert_of_nodup incoming.nodup_keys x.properties n

end Object

/-! ## 3. Heaps -/

namespace Heap

variable {h : Heap} {o source : ObjectId} {x y : Object}

/-- Binds the properties `es` on `o` one after another, up to the first that is refused. -/
def defineEach (h : Heap) (o : ObjectId) :
    List (String × Value) → Option (Except CallError Unit × Heap)
  | [] => some (.ok (), h)
  | e :: rest => (h.define o e.1 e.2).bind fun
      | (.ok (), k) => k.defineEach o rest
      | (.error refusal, k) => some (.error refusal, k)

theorem commit_self (ho : h.object? o = some x) : h.commit o (x, []) = h := by
  obtain ⟨hlt, rfl⟩ := List.getElem?_eq_some_iff.1 ho
  show { h with objects := h.objects.set o.index h.objects[o.index] } = h
  rw [List.set_getElem_self]

theorem commit_commit (h : Heap) (o : ObjectId) (first last : Object × List TokenId) :
    (h.commit o first).commit o last = h.commit o (last.1, last.2 ++ first.2) := by
  show ({ h with
      objects := (h.objects.set o.index first.1).set o.index last.1
      revoked := last.2 ++ (first.2 ++ h.revoked) } : Heap) =
    { h with
      objects := h.objects.set o.index last.1, revoked := last.2 ++ first.2 ++ h.revoked }
  rw [List.set_set, List.append_assoc]

theorem defineEach_eq (ho : h.object? o = some x) (hx : x.frozen = false)
    (es : List (String × Value)) :
    h.defineEach o es = some (.ok (), h.commit o (x.defineEach es)) := by
  induction es generalizing h x with
  | nil => rw [defineEach, Object.defineEach, commit_self ho]
  | cons e rest ih =>
    have hdefine : h.define o e.1 e.2 = some (.ok (), h.commit o (x.define e.1 e.2)) := by
      simp [define, ho, hx]
    have hnext : (h.commit o (x.define e.1 e.2)).object? o = some (x.define e.1 e.2).1 := by
      rw [object?_commit ho, if_pos rfl]
    rw [defineEach, hdefine, Option.bind_some]
    show (h.commit o (x.define e.1 e.2)).defineEach o rest = _
    rw [ih hnext hx, commit_commit]
    rfl

theorem mixin_eq (ho : h.object? o = some x) (hy : h.object? source = some y) :
    h.mixin o source = some (match y.properties.entries with
      | [] => (.ok (), h)
      | e :: _ =>
        if x.frozen then (.error (.frozen e.1), h) else (.ok (), h.commit o (x.mixin y.properties))) := by
  simp only [mixin, ho, hy, Option.bind_eq_bind, Option.bind_some]
  cases y.properties.entries with
  | nil => rfl
  | cons e rest => cases x.frozen <;> rfl

theorem mixin_of_not_frozen (ho : h.object? o = some x) (hy : h.object? source = some y)
    (hx : x.frozen = false) :
    h.mixin o source = some (.ok (), h.commit o (x.mixin y.properties)) := by
  rw [mixin_eq ho hy]
  cases hes : y.properties.entries with
  | nil =>
    have hnothing : x.mixin y.properties = (x, []) := by
      simp only [Object.mixin, Table.keys, hes]
      rfl
    rw [hnothing, commit_self ho]
  | cons e rest => simp [hx]

end Heap

/-- **Mixing in is binding one by one, all or nothing.** In every reachable state, for objects `o`
and `source`, which may be one and the same:

* Where `o` is not frozen the mixin succeeds. To bind the properties that `source` has then on `o`
  one after another, in any order, succeeds too and leaves the same heap, tokens that objects hold
  and all, but for the order in which revoked tokens are listed. The bindings of `source` count, and
  other names keep what they are bound to; just the links to names of `source` are no longer valid.
* Where `o` is frozen and `source` has a property, the mixin is refused with the name of `source`
  whose bytes come first, and nothing changes.
* Where `source` has no property the mixin succeeds and nothing changes, whether `o` is frozen or not.
-/
theorem mixin_is_defines {code : Routines} {c : Config} (hc : Reachable code c)
    {o source : ObjectId} {x y : Object} (ho : c.heap.object? o = some x)
    (hy : c.heap.object? source = some y) :
    (x.frozen = false → ∃ k, c.heap.mixin o source = some (.ok (), k) ∧
      (∀ es, es.Perm y.properties.entries → ∃ k', c.heap.defineEach o es = some (.ok (), k') ∧
        k' = { k with revoked := k'.revoked } ∧ ∀ t, k'.isValid t = k.isValid t) ∧
      (∃ z, k.object? o = some z ∧
        ∀ n, z.properties.get? n = (y.properties.get? n).or (x.properties.get? n)) ∧
      ∀ l ∈ c.heap.links c.stack, k.isValid l.token = true ↔
        c.heap.isValid l.token = true ∧
          ¬(l.owner = o ∧ y.properties.contains l.name = true)) ∧
    (x.frozen = true → (∃ n, y.properties.contains n = true) →
      ∃ first, y.properties.contains first = true ∧
        (∀ n, y.properties.contains n = true → n = first ∨ utf8Bytes first < utf8Bytes n) ∧
        c.heap.mixin o source = some (.error (.frozen first), c.heap)) ∧
    ((∀ n, y.properties.contains n = false) → c.heap.mixin o source = some (.ok (), c.heap)) := by
  refine ⟨fun hx => ⟨_, Heap.mixin_of_not_frozen ho hy hx, fun es hes => ?_, ?_, fun l hl => ?_⟩,
    fun hx hn => ?_, fun hnone => ?_⟩
  · refine ⟨_, Heap.defineEach_eq ho hx es, ?_, fun t => ?_⟩
    · rw [Heap.commit, Object.defineEach_eq_mixin hes]
      rfl
    · show (c.heap.revoke _).isValid t = (c.heap.revoke _).isValid t
      rw [Heap.isValid_revoke, Heap.isValid_revoke,
        (Object.defineEach_perm_mixin (x := x) hes).contains_eq]
  · refine ⟨(x.mixin y.properties).1, ?_, x.get?_mixin y.properties⟩
    rw [Heap.object?_commit ho, if_pos rfl]
  · rw [Heap.isValid_commit (hc.sound.honoured l hl) ho (x.rebinds_mixin y.properties),
      Table.mem_keys_iff]
  · obtain ⟨n, hn⟩ := hn
    rw [← Table.mem_keys_iff] at hn
    cases hes : y.properties.entries with
    | nil =>
      rw [Table.keys, hes] at hn
      exact absurd hn List.not_mem_nil
    | cons e rest =>
      refine ⟨e.1, Table.contains_first hes, fun n hn => Table.first_of_entries hes hn, ?_⟩
      rw [Heap.mixin_eq ho hy, hes, hx]
      rfl
  · cases hes : y.properties.entries with
    | nil => rw [Heap.mixin_eq ho hy, hes]
    | cons e rest =>
      have hfirst := Table.contains_first hes
      rw [hnone e.1] at hfirst
      cases hfirst

namespace MixedIn

/-- Two properties are linked and then another object is there that has one of the two names. -/
def program : Program :=
  .operate .create fun o => .operate (.define o "x" (.int 1)) fun _ =>
  .operate (.define o "y" (.int 2)) fun _ => .operate (.link o "x" { arity := 1 } ⟨0⟩) fun _ =>
  .operate (.link o "y" { arity := 1 } ⟨0⟩) fun _ => .operate .create fun s =>
  .operate (.define s "y" (.int 3)) fun _ => .operate (.define s "z" (.int 4)) fun _ =>
  .done (.ok .null)

def routines : Routines := fun _ _ => .done (.ok .null)

/-- The configuration at the end. -/
def last : Config := (advance routines 8 ⟨{}, program, []⟩).getD ⟨{}, program, []⟩

def getX : Link := ⟨⟨0⟩, ⟨0⟩, "x", { arity := 1 }, .constant (.int 1)⟩

def getY : Link := ⟨⟨1⟩, ⟨0⟩, "y", { arity := 1 }, .constant (.int 2)⟩

end MixedIn

open MixedIn in
-- Binding the other object's properties from the last to the first comes to the same. The stub for
-- the name that both have is no longer valid, and the other stub is.
theorem mixin_is_defines_backwards :
    ∃ k k', last.heap.mixin ⟨0⟩ ⟨1⟩ = some (.ok (), k) ∧
      last.heap.defineEach ⟨0⟩ [("z", .int 4), ("y", .int 3)] = some (.ok (), k') ∧
      k'.objects = k.objects ∧ k.isValid getX.token = true ∧ ¬k.isValid getY.token = true := by
  have hlast : Reachable routines last :=
    (Reachable.start program).advance (n := 8) (d := last) rfl
  obtain ⟨x, hx⟩ : ∃ x, last.heap.object? ⟨0⟩ = some x := ⟨_, rfl⟩
  obtain ⟨y, hy⟩ : ∃ y, last.heap.object? ⟨1⟩ = some y := ⟨_, rfl⟩
  obtain ⟨hopen, -, -⟩ := mixin_is_defines hlast hx hy
  cases hx
  cases hy
  obtain ⟨k, hk, heach, -, hvalid⟩ := hopen rfl
  obtain ⟨k', hk', hsame, -⟩ := heach [("z", .int 4), ("y", .int 3)] (.swap _ _ [])
  have hgetX : getX ∈ last.heap.links last.stack := Heap.mem_links.2 (.inl ⟨⟨getX, ⟨0⟩⟩, by decide, rfl⟩)
  have hgetY : getY ∈ last.heap.links last.stack := Heap.mem_links.2 (.inl ⟨⟨getY, ⟨0⟩⟩, by decide, rfl⟩)
  refine ⟨k, k', hk, hk', by rw [hsame], (hvalid getX hgetX).2 (by decide), fun hv => ?_⟩
  exact ((hvalid getY hgetY).1 hv).2 (by decide)

end LateBind

import Std.Data.HashMap

/-!
Interned names. Two names of one interner are equal exactly when their texts are, so every later
pass compares indices and looks texts up only to print them.
-/
namespace LateBind

/-- A text by its place in an interner. -/
structure Name where
  index : Nat
deriving DecidableEq, Repr, Inhabited

namespace Name

/-- The empty text, which every interner holds from the start. -/
def empty : Name := ⟨0⟩

def text (n : Name) : String := "Name(" ++ toString n.index ++ ")"

end Name

/-- The texts interned so far, and where each of them is. -/
structure Interner where
  /-- The texts by index, in order of first use. -/
  texts : Array String
  /-- The index of each text. -/
  indices : Std.HashMap String Nat
  /-- Index 0 is the empty text. -/
  first : texts[0]? = some ""
  /-- Each table is the other one read backwards. -/
  agree : ∀ (s : String) (i : Nat), indices[s]? = some i ↔ texts[i]? = some s

namespace Interner

def initial : Interner where
  texts := #[""]
  indices := (∅ : Std.HashMap String Nat).insert "" 0
  first := rfl
  agree s i := by
    rw [Std.HashMap.getElem?_insert]
    by_cases hs : s = ""
    · cases i <;> simp [hs]
    · cases i <;> simp [Ne.symm hs]

instance : Inhabited Interner := ⟨initial⟩

/-- The text of `n`. A name this interner never issued has the empty text. -/
def lookup (t : Interner) (n : Name) : String := t.texts[n.index]?.getD ""

/-- The name of `s`, if it is empty or was interned before. -/
def get? (t : Interner) (s : String) : Option Name := t.indices[s]?.map Name.mk

/-- Takes up a text that has no index yet. -/
def add (t : Interner) (s : String) (hs : t.indices[s]? = none) : Interner where
  texts := t.texts.push s
  indices := t.indices.insert s t.texts.size
  first := by
    have hlt : 0 < t.texts.size := (Array.getElem?_eq_some_iff.1 t.first).1
    rw [Array.getElem?_push_lt hlt, ← Array.getElem?_eq_getElem hlt, t.first]
  agree u i := by
    rw [Std.HashMap.getElem?_insert, Array.getElem?_push]
    by_cases hi : i = t.texts.size
    · -- The next index was free.
      have hfree : t.indices[u]? ≠ some i := by
        rw [ne_eq, t.agree, hi]
        simp
      by_cases hu : s = u <;> simp [hi ▸ hfree, hi, hu]
    · -- The text was nowhere.
      have hnew : t.texts[i]? ≠ some s := by
        rw [ne_eq, ← t.agree, hs]
        simp
      by_cases hu : s = u
      · subst hu
        simp [hi, hnew, Ne.symm hi]
      · simp [hi, hu, t.agree]

/-- The name of `s`; a text seen for the first time takes the next index. -/
def intern (t : Interner) (s : String) : Name × Interner :=
  match h : t.indices[s]? with
  | some i => (⟨i⟩, t)
  | none => (⟨t.texts.size⟩, t.add s h)

/-- Names issued, the empty one included. -/
def size (t : Interner) : Nat := t.texts.size

/-- Whether only the empty text is known. -/
def isEmpty (t : Interner) : Bool := t.size ≤ 1

def text (t : Interner) : String := "StringInterner(" ++ toString t.size ++ " names)"

/-! ## What interning keeps -/

/-- The name of a text is where the text stands. -/
theorem get?_eq_some_iff {t : Interner} {s : String} {n : Name} :
    t.get? s = some n ↔ t.texts[n.index]? = some s := by
  rw [get?, Option.map_eq_some_iff]
  constructor
  · rintro ⟨i, hi, rfl⟩
    exact (t.agree s i).1 hi
  · intro hn
    exact ⟨n.index, (t.agree s n.index).2 hn, rfl⟩

/-- A text is known already, and nothing changes, or it is put behind all others. -/
theorem intern_cases (t : Interner) (s : String) :
    (∃ n, t.get? s = some n ∧ t.intern s = (n, t)) ∨
    ∃ hs, t.get? s = none ∧ t.intern s = (⟨t.size⟩, t.add s hs) := by
  unfold intern
  split
  next i hi => exact .inl ⟨⟨i⟩, by rw [get?, hi, Option.map_some], rfl⟩
  next hs => exact .inr ⟨hs, by rw [get?, hs, Option.map_none], rfl⟩

/-- A name that was found for a text has that text. -/
theorem lookup_of_get? {t : Interner} {s : String} {n : Name} (h : t.get? s = some n) :
    t.lookup n = s := by
  rw [lookup, get?_eq_some_iff.1 h, Option.getD_some]

/-- Interning answers with the name that the text has from then on. -/
theorem get?_intern (t : Interner) (s : String) : (t.intern s).2.get? s = some (t.intern s).1 := by
  rcases t.intern_cases s with ⟨n, hn, hintern⟩ | ⟨hs, -, hintern⟩ <;> rw [hintern]
  · exact hn
  · rw [get?_eq_some_iff]
    exact Array.getElem?_push_size

theorem lookup_intern (t : Interner) (s : String) : (t.intern s).2.lookup (t.intern s).1 = s :=
  lookup_of_get? (t.get?_intern s)

end Interner

end LateBind

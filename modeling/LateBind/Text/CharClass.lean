/-! Classes of characters, given by ranges of code points. -/
namespace LateBind

/-- A class of characters. -/
structure CharClass where
  /-- First and last code point of each run of the class. -/
  ranges : List (Nat × Nat)

namespace CharClass

def contains (k : CharClass) (c : Char) : Bool :=
  k.ranges.any fun (first, last) => first ≤ c.toNat && c.toNat ≤ last

theorem contains_iff {k : CharClass} {c : Char} :
    k.contains c = true ↔ ∃ r ∈ k.ranges, r.1 ≤ c.toNat ∧ c.toNat ≤ r.2 := by
  simp [contains]

/-- Control characters. -/
def control : CharClass := ⟨[(0x00, 0x1f), (0x7f, 0x9f)]⟩

/-- Characters that steer layout or direction and have no shape (category Cf). -/
def format : CharClass :=
  ⟨[(0xad, 0xad), (0x600, 0x605), (0x61c, 0x61c), (0x6dd, 0x6dd), (0x70f, 0x70f), (0x890, 0x891),
    (0x8e2, 0x8e2), (0x180e, 0x180e), (0x200b, 0x200f), (0x202a, 0x202e), (0x2060, 0x2064),
    (0x2066, 0x206f), (0xfeff, 0xfeff), (0xfff9, 0xfffb), (0x110bd, 0x110bd), (0x110cd, 0x110cd),
    (0x13430, 0x1343f), (0x1bca0, 0x1bca3), (0x1d173, 0x1d17a), (0xe0001, 0xe0001),
    (0xe0020, 0xe007f)]⟩

/-- Spaces, line and paragraph separators (categories Zs, Zl and Zp). -/
def separator : CharClass :=
  ⟨[(0x20, 0x20), (0xa0, 0xa0), (0x1680, 0x1680), (0x2000, 0x200a), (0x2028, 0x2029),
    (0x202f, 0x202f), (0x205f, 0x205f), (0x3000, 0x3000)]⟩

/-- Characters whose meaning is left to users (category Co). -/
def privateUse : CharClass :=
  ⟨[(0xe000, 0xf8ff), (0xf0000, 0xffffd), (0x100000, 0x10fffd)]⟩

/-- Characters that a display leaves out where it has no use for them, letters that stand for no
sound among them (Default_Ignorable_Code_Point). -/
def ignorable : CharClass :=
  ⟨[(0xad, 0xad), (0x34f, 0x34f), (0x61c, 0x61c), (0x115f, 0x1160), (0x17b4, 0x17b5),
    (0x180b, 0x180f), (0x200b, 0x200f), (0x202a, 0x202e), (0x2060, 0x206f), (0x3164, 0x3164),
    (0xfe00, 0xfe0f), (0xfeff, 0xfeff), (0xffa0, 0xffa0), (0xfff0, 0xfff8), (0x1bca0, 0x1bca3),
    (0x1d173, 0x1d17a), (0xe0000, 0xe0fff)]⟩

end CharClass

end LateBind

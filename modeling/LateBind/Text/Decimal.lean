/-!
Doubles in decimal notation: the fewest digits that read back as the same double, and of those
the nearest to it.
-/
namespace LateBind

/-- The number `digits · 10 ^ exponent`. -/
structure Decimal where
  digits : Nat
  exponent : Int
deriving DecidableEq, Repr

/-- What the leading bit of a fraction counts, which is not stored. -/
def hiddenBit : Nat := 0x10000000000000

namespace Decimal

/-- The decimals that round to a double, in units of `2 ^ scale`: all between `low` and `high`,
with the ends if `closed`. The double itself is at `mid`. -/
structure Rounding where
  low : Nat
  mid : Nat
  high : Nat
  scale : Int
  closed : Bool

/-- The rounding of the positive double with fraction `m` and exponent `q`, that is `m · 2 ^ q`.
In quarters of `2 ^ q` a neighbour is 4 away, or 2 below a power of two that is not the least. -/
def rounding (m : Nat) (q : Int) : Rounding :=
  { low := 4 * m - if m = hiddenBit ∧ -1074 < q then 1 else 2
    mid := 4 * m
    high := 4 * m + 2
    scale := q - 2
    closed := m % 2 == 0 }

/-- The multiple of `10 ^ k` that rounds to the double, if there is one. Of two the nearer is
taken, and of two equally near the larger. -/
def onGrid? (r : Rounding) (k : Int) : Option Nat :=
  let a := Nat.pow 10 k.toNat * Nat.pow 2 (-r.scale).toNat
  let b := Nat.pow 10 (-k).toNat * Nat.pow 2 r.scale.toNat
  let inside (d : Nat) : Bool :=
    if r.closed then r.low * b ≤ d * a && d * a ≤ r.high * b
    else r.low * b < d * a && d * a < r.high * b
  let d := r.mid * b / a
  match inside d, inside (d + 1) with
  | true, true => some (if 2 * (r.mid * b - d * a) < a then d else d + 1)
  | true, false => some d
  | false, true => some (d + 1)
  | false, false => none

/-- The coarsest grid with a hit gives the fewest digits. The search starts one place above the
leading digit and goes past the seventeenth, which always suffices. -/
def shortest (m : Nat) (q : Int) : Decimal :=
  let leading : Int := ((m.log2 : Int) + q) * 1233 / 4096
  let hit := (List.range 24).findSome? fun (i : Nat) =>
    let k := leading + 1 - i
    (onGrid? (rounding m q) k).map fun d => ⟨d, k⟩
  hit.getD ⟨0, 0⟩

/-- Positional from `10 ^ -4` up to `10 ^ 16`, always with a point; scientific outside. -/
def text (d : Decimal) : String :=
  let ds := (toString d.digits).toList
  let place := d.exponent + ds.length - 1
  let zeros (n : Nat) := List.replicate n '0'
  let cs :=
    if -4 ≤ place ∧ place < 16 then
      if 0 ≤ d.exponent then ds ++ zeros d.exponent.toNat ++ ['.', '0']
      else if 0 ≤ place then ds.take (place.toNat + 1) ++ '.' :: ds.drop (place.toNat + 1)
      else ['0', '.'] ++ zeros (-place - 1).toNat ++ ds
    else
      let fraction := if ds.length = 1 then [] else '.' :: ds.drop 1
      ds.take 1 ++ fraction ++ 'e' :: (toString place).toList
  String.ofList cs

end Decimal

/-- The text of a double given by its bits. -/
def floatText (bits : UInt64) : String :=
  let n := bits.toNat
  let sign := if n < 0x8000000000000000 then "" else "-"
  let biased : Nat := n / hiddenBit % 2048
  let fraction : Nat := n % hiddenBit
  if biased = 2047 then if fraction = 0 then sign ++ "inf" else "NaN"
  else if biased = 0 ∧ fraction = 0 then sign ++ "0.0"
  else if biased = 0 then sign ++ (Decimal.shortest fraction (-1074)).text
  else sign ++ (Decimal.shortest (hiddenBit + fraction) ((biased : Int) - 1075)).text

end LateBind

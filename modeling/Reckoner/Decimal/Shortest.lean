/-!
The decimal with the fewest digits that reads as a given number. The number comes with the interval
of those that read as it, as fractions over one denominator, so that all comparisons are exact.
-/
namespace Reckoner

/-- The number `digits * 10 ^ exponent`. -/
structure Decimal where
  digits : Nat
  exponent : Int
  deriving DecidableEq, Repr

/-- The positive number `value / scale` and the ends `low / scale` and `high / scale` of the interval
that reads as it; the ends belong to it if `closed`. -/
structure Vicinity where
  scale : Nat
  low : Nat
  value : Nat
  high : Nat
  closed : Bool
  deriving DecidableEq, Repr

namespace Vicinity

def contains (v : Vicinity) (num den : Nat) : Bool :=
  let x := num * v.scale
  if v.closed then v.low * den ≤ x && x ≤ v.high * den else v.low * den < x && x < v.high * den

def digitCount (n : Nat) : Nat := (Nat.toDigits 10 n).length

def magnitude (v : Vicinity) : Int :=
  if v.scale ≤ v.value then digitCount (v.value / v.scale)
  else 1 - (digitCount ((v.scale - 1) / v.value) : Int)

/-- The nearest number with `count` digits that reads as the number, if there is one; of two equally
near ones the greater. -/
def candidate? (v : Vicinity) (count : Nat) : Option Decimal :=
  let exponent := v.magnitude - count
  let num := Nat.pow 10 exponent.toNat
  let den := Nat.pow 10 (-exponent).toNat
  let unit := num * v.scale
  let below := v.value * den / unit
  let rest := v.value * den % unit
  let low := v.contains (below * num) den
  let high := v.contains ((below + 1) * num) den
  if high && (!low || unit ≤ 2 * rest) then some ⟨below + 1, exponent⟩
  else if low then some ⟨below, exponent⟩
  else none

def shortest? (v : Vicinity) (limit : Nat) : Option Decimal :=
  (List.range limit).findSome? fun k => v.candidate? (k + 1)

end Vicinity

end Reckoner

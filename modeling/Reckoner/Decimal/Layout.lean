import Reckoner.Decimal.Shortest
import Reckoner.Number.Basic

/-!
Singles as text: with the fewest digits that read back, or with a fixed number of places.
-/
namespace Reckoner

namespace Single

def ofMagnitude (n : Nat) : Single := ⟨n.toUInt32⟩

def magnitude (x : Single) : Nat := x.bits.toNat % 0x80000000

/-- A positive finite single with the numbers that round to it. The ends lie half way to its
neighbours and round to the even pattern. -/
def vicinity (x : Single) : Vicinity :=
  let m := x.magnitude
  { scale := 2 * one
    low := (ofMagnitude (m - 1)).units + x.units
    value := 2 * x.units
    high := x.units + (ofMagnitude (m + 1)).units
    closed := m % 2 = 0 }

def maxDigits : Nat := 9

def shortest (x : Single) : Decimal :=
  if x.units = 0 then ⟨0, 0⟩ else (x.vicinity.shortest? maxDigits).getD ⟨0, 0⟩

end Single

structure Layout where
  plainFrom : Single
  plainBelow : Single
  infinity : String
  nan : String
  deriving DecidableEq, Repr

namespace Layout

def dropZeros (digits : List Char) : List Char :=
  (digits.reverse.dropWhile (· = '0')).reverse

def plain (digits : List Char) (point : Int) : String :=
  let whole := digits.take point.toNat ++ List.replicate (point.toNat - digits.length) '0'
  let fraction := List.replicate (-point).toNat '0' ++ digits.drop point.toNat
  let orZero (cs : List Char) : List Char := if cs.isEmpty then ['0'] else cs
  String.ofList (orZero whole ++ '.' :: orZero fraction)

def scientific (digits : List Char) (point : Int) : String :=
  let fraction := digits.drop 1
  String.ofList (digits.take 1 ++ (if fraction.isEmpty then [] else '.' :: fraction)) ++
    "e" ++ toString (point - 1)

def magnitude (l : Layout) (x : Single) : String :=
  let d := x.shortest
  let all := Nat.toDigits 10 d.digits
  let digits := dropZeros all
  let point := all.length + d.exponent
  if x.units = 0 then plain [] 0
  else if l.plainFrom.magnitude ≤ x.magnitude ∧ x.magnitude < l.plainBelow.magnitude then
    plain digits point
  else scientific digits point

def format (l : Layout) (x : Single) : String :=
  if x.isNaN then l.nan
  else (if x.isNegative then "-" else "") ++ if x.isInfinite then l.infinity else l.magnitude x

end Layout

namespace Decimal

/-- The whole number nearest to `num / den`; half way, the even one. -/
def roundDiv (num den : Nat) : Nat :=
  let q := num / den
  let r := num % den
  if 2 * r < den ∨ (2 * r = den ∧ q % 2 = 0) then q else q + 1

end Decimal

/-- A single with `places` places after the point, rounded from its exact value. -/
def Single.fixed (places : Nat) (x : Single) : String :=
  if x.isNaN then "NaN"
  else
    let magnitude :=
      if x.isInfinite then "inf"
      else
        let digits := Nat.toDigits 10 (Decimal.roundDiv (x.units * Nat.pow 10 places) Single.one)
        let padded := List.replicate (places + 1 - digits.length) '0' ++ digits
        let whole := padded.length - places
        String.ofList (padded.take whole ++ '.' :: padded.drop whole)
    (if x.isNegative then "-" else "") ++ magnitude

end Reckoner

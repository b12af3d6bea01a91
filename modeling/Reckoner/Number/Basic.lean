/-!
Floating-point numbers as bit patterns. A number is told apart by its pattern alone, so two
numbers are equal exactly when their patterns are; the value of a finite single is the integer
`Single.units` counted in steps of the least positive single.
-/
namespace Reckoner

/-- A single-precision number, by its interchange pattern. -/
structure Single where
  bits : UInt32
  deriving DecidableEq, Repr

structure Double where
  bits : UInt64
  deriving DecidableEq, Repr

namespace Single

def exponent (x : Single) : Nat := x.bits.toNat / 0x800000 % 0x100

def fraction (x : Single) : Nat := x.bits.toNat % 0x800000

def isNegative (x : Single) : Bool := 0x80000000 ≤ x.bits.toNat

def isNaN (x : Single) : Bool := x.exponent = 255 && x.fraction ≠ 0

def isInfinite (x : Single) : Bool := x.exponent = 255 && x.fraction = 0

def nan : Single := ⟨0x7fc00000⟩

def canonical (x : Single) : Single := if x.isNaN then nan else x

/-- The magnitude of a finite number in units of `2 ^ (-149)`, the least positive single. -/
def units (x : Single) : Nat :=
  if x.exponent = 0 then x.fraction else (0x800000 + x.fraction) * Nat.pow 2 (x.exponent - 1)

def one : Nat := Nat.pow 2 149

end Single

namespace Double

def one : Double := ⟨0x3ff0000000000000⟩

def ten : Double := ⟨0x4024000000000000⟩

def isNaN (x : Double) : Bool := x.bits.toNat % 0x8000000000000000 > 0x7ff0000000000000

end Double

end Reckoner

import Reckoner.Number.Basic
import Reckoner.Operator

/-!
The arithmetic that formulas are computed with, as a record of its primitives. Nothing in the
compiler depends on what the primitives do; the laws that code generation relies on are
`Arithmetic.Commutes` and, for native code, `Arithmetic.RootsAgree`.
-/
namespace Reckoner

/-- The primitives of the two precisions. Literals are doubles and arguments are singles. -/
structure Arithmetic where
  ofUInt64 : UInt64 → Double
  neg : Double → Double
  binaryDouble : Operator → Double → Double → Double
  intrinsicDouble : Intrinsic → Double → Double
  binarySingle : Operator → Single → Single → Single
  /-- The square root as an instruction on singles. -/
  rootSingle : Single → Single
  narrow : Double → Single
  widen : Single → Double

namespace Arithmetic

def intrinsicSingle (A : Arithmetic) (f : Intrinsic) (x : Single) : Single :=
  A.narrow (A.intrinsicDouble f (A.widen x))

/-- Native code takes the root by the instruction and calls for all other functions. -/
def intrinsicNative (A : Arithmetic) : Intrinsic → Single → Single
  | .sqrt, x => A.rootSingle x
  | f, x => A.intrinsicSingle f x

/-- Sums and products of singles do not depend on the order of the operands. Every NaN that an
operation produces has one pattern, so this is an equation between patterns. -/
def Commutes (A : Arithmetic) : Prop :=
  ∀ op, op.isCommutative = true → ∀ x y, A.binarySingle op x y = A.binarySingle op y x

/-- A root that is correctly rounded to a single may be taken in double precision first. -/
def RootsAgree (A : Arithmetic) : Prop := ∀ x, A.rootSingle x = A.intrinsicSingle .sqrt x

end Arithmetic

end Reckoner

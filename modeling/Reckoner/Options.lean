/-!
What the compiler is allowed to do to a formula.
-/
namespace Reckoner

structure Options where
  foldConstants : Bool
  foldIntrinsics : Bool
  /-- Use calls that take their operand directly instead of from the stack. -/
  fuseOperands : Bool
  deriving DecidableEq, Repr

namespace Options

def optimized : Options := ⟨true, true, true⟩

def unoptimized : Options := ⟨false, false, false⟩

end Options

structure BatchFlags where
  bits : UInt32
  deriving DecidableEq, Repr

namespace BatchFlags

def none : BatchFlags := ⟨0⟩

def keepGoing : BatchFlags := ⟨1⟩

def union (a b : BatchFlags) : BatchFlags := ⟨a.bits ||| b.bits⟩

def contains (a b : BatchFlags) : Bool := a.bits &&& b.bits = b.bits

end BatchFlags

end Reckoner

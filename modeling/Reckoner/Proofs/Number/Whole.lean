import Reckoner.Number.Arithmetic

/-! The arithmetic of small whole numbers, in which everything can be computed. It agrees with
binary floating point as long as operands and result are whole and not negative, and gives NaN
elsewhere. -/
namespace Reckoner

def wholePattern (width bias n : Nat) : Nat :=
  (bias + n.log2) <<< width + (n <<< (width - n.log2) - 1 <<< width)

def wholeOfPattern (width bias pattern : Nat) : Option Nat :=
  let exponent := pattern >>> width
  let significand := 1 <<< width + pattern % (1 <<< width)
  if pattern = 0 then some 0
  else if exponent < bias ∨ bias + width < exponent then none
  else if significand % (1 <<< (width + bias - exponent)) = 0 then
    some (significand >>> (width + bias - exponent))
  else none

def Single.ofWhole? : Option Nat → Single
  | none => .nan
  | some n => if n = 0 then ⟨0⟩ else if n < 0x1000000 then ⟨(wholePattern 23 127 n).toUInt32⟩ else .nan

def Single.toWhole? (x : Single) : Option Nat := wholeOfPattern 23 127 x.bits.toNat

def Double.ofWhole? : Option Nat → Double
  | none => ⟨0x7ff8000000000000⟩
  | some n =>
    if n = 0 then ⟨0⟩ else if n < 0x20000000000000 then ⟨(wholePattern 52 1023 n).toUInt64⟩
    else ⟨0x7ff8000000000000⟩

def Double.toWhole? (x : Double) : Option Nat := wholeOfPattern 52 1023 x.bits.toNat

def Operator.whole? : Operator → Option Nat → Option Nat → Option Nat
  | add, some m, some n => some (m + n)
  | sub, some m, some n => if n ≤ m then some (m - n) else none
  | div, some m, some n => if n ≠ 0 ∧ m % n = 0 then some (m / n) else none
  | mul, some m, some n => some (m * n)
  | _, _, _ => none

def Intrinsic.whole? : Intrinsic → Option Nat → Option Nat
  | sin, some 0 => some 0
  | cos, some 0 => some 1
  | sqrt, some n => (List.range (n + 1)).find? fun root => root * root = n
  | _, _ => none

def Arithmetic.whole : Arithmetic where
  ofUInt64 n := .ofWhole? (some n.toNat)
  neg x := ⟨x.bits ^^^ 0x8000000000000000⟩
  binaryDouble op x y := .ofWhole? (op.whole? x.toWhole? y.toWhole?)
  intrinsicDouble f x := .ofWhole? (f.whole? x.toWhole?)
  binarySingle op x y := .ofWhole? (op.whole? x.toWhole? y.toWhole?)
  rootSingle x :=
    .ofWhole? (Double.ofWhole? (Intrinsic.whole? .sqrt (Double.ofWhole? x.toWhole?).toWhole?)).toWhole?
  narrow x := .ofWhole? x.toWhole?
  widen x := .ofWhole? x.toWhole?

theorem Operator.whole?_comm {op : Operator} (h : op.isCommutative = true) (m n : Option Nat) :
    op.whole? m n = op.whole? n m := by
  cases op with
  | add => cases m <;> cases n <;> simp [whole?, Nat.add_comm]
  | mul => cases m <;> cases n <;> simp [whole?, Nat.mul_comm]
  | sub => contradiction
  | div => contradiction

theorem Arithmetic.whole_commutes : Arithmetic.whole.Commutes := by
  intro op hop x y
  dsimp only [Arithmetic.whole]
  rw [Operator.whole?_comm hop]

theorem Arithmetic.whole_rootsAgree : Arithmetic.whole.RootsAgree := fun _ => rfl

end Reckoner

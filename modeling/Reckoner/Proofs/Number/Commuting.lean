import Reckoner.Number.Arithmetic

/-! When the order of the operands of a sum or a product does not matter. -/
namespace Reckoner

def Single.Same (x y : Single) : Prop := x.canonical = y.canonical

/-- Sums and products do not depend on the order of their operands as far as `same` tells numbers
apart, and no operation on singles tells apart what `same` does not. -/
structure Arithmetic.CommutesUpTo (A : Arithmetic) (same : Single → Single → Prop) : Prop where
  equivalence : Equivalence same
  binary : ∀ op {x x' y y'}, same x x' → same y y' →
    same (A.binarySingle op x y) (A.binarySingle op x' y')
  call : ∀ f {x x'}, same x x' → same (A.intrinsicSingle f x) (A.intrinsicSingle f x')
  swap : ∀ op, op.isCommutative = true → ∀ x y,
    same (A.binarySingle op x y) (A.binarySingle op y x)

theorem Arithmetic.RootsAgree.intrinsicNative {A : Arithmetic} (h : A.RootsAgree) (f : Intrinsic)
    (x : Single) : A.intrinsicNative f x = A.intrinsicSingle f x := by
  cases f with
  | sin => rfl
  | cos => rfl
  | sqrt => exact h x

theorem Arithmetic.Commutes.upTo_eq {A : Arithmetic} (h : A.Commutes) : A.CommutesUpTo Eq where
  equivalence := ⟨fun _ => rfl, Eq.symm, Eq.trans⟩
  binary op _ _ _ _ hx hy := by rw [hx, hy]
  call f _ _ hx := by rw [hx]
  swap := h

end Reckoner

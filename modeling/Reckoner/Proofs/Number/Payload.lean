import Reckoner.Proofs.Number.Commuting
import Reckoner.Proofs.Number.Whole

/-! Whole numbers with NaNs that are told apart. An operation on a NaN hands on the first of its
operands that is one, as machines do, so that the order of operands shows in the pattern of the result
and in nothing else. -/
namespace Reckoner

namespace Single

variable {x y : Single}

theorem canonical_of_isNaN (h : x.isNaN = true) : x.canonical = nan := by
  rw [canonical, if_pos h]

theorem same_of_isNaN (hx : x.isNaN = true) (hy : y.isNaN = true) : x.Same y := by
  rw [Same, canonical_of_isNaN hx, canonical_of_isNaN hy]

theorem same_iff : x.Same y ↔ x = y ∨ x.isNaN = true ∧ y.isNaN = true := by
  constructor
  · intro h
    have hnan : nan.isNaN = true := by decide
    unfold Same canonical at h
    split at h <;> split at h
    next hx hy => exact .inr ⟨hx, hy⟩
    next hx hy => exact absurd (h ▸ hnan) hy
    next hx hy => exact absurd (h ▸ hnan) hx
    next => exact .inl h
  · rintro (rfl | ⟨hx, hy⟩)
    · exact rfl
    · exact same_of_isNaN hx hy

theorem toWhole?_of_isNaN (h : x.isNaN = true) : x.toWhole? = none := by
  rw [isNaN, Bool.and_eq_true, decide_eq_true_eq, exponent] at h
  have hexponent : 255 ≤ x.bits.toNat >>> 23 := by
    have hfield := h.1
    rw [Nat.shiftRight_eq_div_pow]
    omega
  have hpattern : x.bits.toNat ≠ 0 := by omega
  simp only [toWhole?, wholeOfPattern, if_neg hpattern]
  rw [if_pos (.inr (by omega))]

end Single

namespace Arithmetic

def payload : Arithmetic :=
  { whole with
    binarySingle := fun op x y =>
      if x.isNaN then x else if y.isNaN then y else whole.binarySingle op x y }

theorem payload_not_commutes : ¬ payload.Commutes := by
  intro h
  have hswapped := h .add rfl ⟨0x7fc00001⟩ ⟨0x7fc00002⟩
  exact absurd hswapped (by decide)

theorem payload_rootsAgree : payload.RootsAgree := fun _ => rfl

theorem isNaN_payload_of_left {op : Operator} {x : Single} (h : x.isNaN = true) (y : Single) :
    (payload.binarySingle op x y).isNaN = true := by
  simp only [payload, h, if_true]

theorem isNaN_payload_of_right {op : Operator} {y : Single} (h : y.isNaN = true) (x : Single) :
    (payload.binarySingle op x y).isNaN = true := by
  simp only [payload, h, if_true]
  split
  next hx => exact hx
  next => exact h

theorem payload_commutesUpTo : payload.CommutesUpTo Single.Same where
  equivalence := ⟨fun _ => rfl, Eq.symm, Eq.trans⟩
  binary op x x' y y' hx hy := by
    rcases Single.same_iff.1 hx with rfl | ⟨hx, hx'⟩
    · rcases Single.same_iff.1 hy with rfl | ⟨hy, hy'⟩
      · rfl
      · exact Single.same_of_isNaN (isNaN_payload_of_right hy x) (isNaN_payload_of_right hy' x)
    · exact Single.same_of_isNaN (isNaN_payload_of_left hx y) (isNaN_payload_of_left hx' y')
  call f x x' hx := by
    rcases Single.same_iff.1 hx with rfl | ⟨hx, hx'⟩
    · rfl
    · have hwiden : payload.widen x = payload.widen x' := by
        simp only [payload, whole, Single.toWhole?_of_isNaN hx, Single.toWhole?_of_isNaN hx']
      rw [intrinsicSingle, intrinsicSingle, hwiden]
      rfl
  swap op hop x y := by
    cases hx : x.isNaN with
    | true => exact Single.same_of_isNaN (isNaN_payload_of_left hx y) (isNaN_payload_of_right hx y)
    | false =>
      cases hy : y.isNaN with
      | true => exact Single.same_of_isNaN (isNaN_payload_of_right hy x) (isNaN_payload_of_left hy x)
      | false =>
        have hswapped := whole_commutes op hop x y
        simp only [payload, hx, hy, Bool.false_eq_true, if_false, hswapped]
        rfl

end Arithmetic

end Reckoner

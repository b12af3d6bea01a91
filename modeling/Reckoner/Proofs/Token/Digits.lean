import Mathlib.Tactic.NormNum
import Reckoner.Proofs.Token.Joining

/-! Runs of digits and the numbers they stand for. A run is kept modulo the size of a word, and nineteen
digits fit. -/
namespace Reckoner

def Text.decimal (ds : List Char) : Nat := Nat.ofDigitChars 10 ds 0

namespace Text

@[simp] theorem decimal_nil : decimal [] = 0 := rfl

theorem decimal_append (as bs : List Char) :
    decimal (as ++ bs) = 10 ^ bs.length * decimal as + decimal bs := by
  rw [decimal, Nat.ofDigitChars_append, Nat.ofDigitChars_eq_ofDigitChars_zero]
  rfl

theorem decimal_lt {ds : List Char} (h : ∀ c ∈ ds, c.isDigit = true) :
    decimal ds < 10 ^ ds.length := by
  induction ds with
  | nil => decide
  | cons c ds ih =>
    rw [List.forall_mem_cons] at h
    have hdigit : decimal [c] = c.toNat - 48 := by simp [decimal, Nat.ofDigitChars_cons]
    have hrange := DigitRun.range_of_isDigit h.1
    have hrest := ih h.2
    rw [← List.singleton_append, decimal_append, hdigit, List.singleton_append, List.length_cons,
      pow_succ]
    have hfirst : 10 ^ ds.length * (c.toNat - 48) ≤ 10 ^ ds.length * 9 :=
      Nat.mul_le_mul_left _ (by omega)
    omega

end Text

namespace DigitRun

theorem read_eq (limit : Nat) (cs : List Char) :
    read limit cs = ⟨UInt64.ofNat (Text.decimal ((cs.takeWhile Char.isDigit).take limit)),
      min limit (cs.takeWhile Char.isDigit).length, (cs.takeWhile Char.isDigit).length⟩ := by
  have hvalue := foldl_digit ((cs.takeWhile Char.isDigit).take limit) 0
  rw [read, Text.decimal, ← hvalue, List.length_take]
  rfl

theorem read_digits {ds : List Char} (h : ∀ c ∈ ds, c.isDigit = true) (limit : Nat) :
    read limit ds =
      ⟨UInt64.ofNat (Text.decimal (ds.take limit)), min limit ds.length, ds.length⟩ := by
  rw [read_eq, takeWhile_eq_self h]

theorem toNat_decimal {ds : List Char} (h : ∀ c ∈ ds, c.isDigit = true) (hlength : ds.length ≤ 19) :
    (UInt64.ofNat (Text.decimal ds)).toNat = Text.decimal ds := by
  have hlt : Text.decimal ds < 10 ^ 19 :=
    (Text.decimal_lt h).trans_le (Nat.pow_le_pow_right (by decide) hlength)
  apply UInt64.toNat_ofNat_of_lt'
  exact hlt.trans (by decide)

end DigitRun

theorem Scan.ofChars_single {c : Char} {piece : List Char} {t : Token}
    (hc : Text.isSpacing c = false) (hread : Token.read c piece = .ok (t, piece.length)) :
    Scan.ofChars 0 0 (c :: piece) =
      ⟨[⟨t, 0, Text.byteLength (c :: piece)⟩], Text.byteLength (c :: piece), none⟩ := by
  rw [ofChars, if_neg (by simp [hc]), hread]
  dsimp only
  rw [ofChars_skip, List.drop_length, List.take_length]
  simp [ofChars, cons]

end Reckoner

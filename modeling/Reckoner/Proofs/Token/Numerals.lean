import Mathlib.Tactic
import Reckoner.Proofs.Token.Digits

/-! Numbers as they are written, and what is kept of them. The whole part is kept modulo the size of a
word and the fraction up to a number of digits; the two together say when the number that is kept agrees
with the one that is written to single precision. -/
namespace Reckoner

open Text (decimal)

/-- An unsigned number as it is written: digits, with a point in front of the fraction if there is
one. -/
structure Numeral where
  whole : List Char
  fraction? : Option (List Char)
  isDigit_whole : ∀ c ∈ whole, c.isDigit = true
  isDigit_fraction : ∀ c ∈ fraction?.getD [], c.isDigit = true
  ne_nil : whole ≠ [] ∨ fraction?.getD [] ≠ []

namespace Numeral

def fraction (n : Numeral) : List Char := n.fraction?.getD []

def tail (n : Numeral) : List Char :=
  match n.fraction? with
  | none => []
  | some ds => '.' :: ds

def chars (n : Numeral) : List Char := n.whole ++ n.tail

def value (n : Numeral) : ℚ := decimal n.whole + decimal n.fraction / 10 ^ n.fraction.length

def literal (n : Numeral) : Literal where
  whole := UInt64.ofNat (decimal (n.whole.take DigitRun.wholeLimit))
  fraction := UInt64.ofNat (decimal (n.fraction.take DigitRun.fractionLimit))
  places := min DigitRun.fractionLimit n.fraction.length
  pointed := n.fraction?.isSome

theorem read_chars (n : Numeral) : Literal.read n.chars = .ok (n.literal, n.chars.length) := by
  have hpoint : ∀ d, n.tail.head? = some d → d.isDigit = false := by
    intro d hd
    unfold tail at hd
    split at hd
    next => contradiction
    next => cases hd; rfl
  have hwhole := (DigitRun.read_append hpoint DigitRun.wholeLimit n.whole).trans
    (DigitRun.read_digits n.isDigit_whole DigitRun.wholeLimit)
  have hfraction := n.isDigit_fraction
  have hne := n.ne_nil
  simp only [Literal.read, chars, hwhole, List.drop_left]
  unfold tail literal fraction
  cases hsome : n.fraction? with
  | none => simp
  | some ds =>
    rw [hsome] at hfraction hne
    simp only [Option.getD_some] at hfraction hne
    have hdigits : ¬ (min DigitRun.wholeLimit n.whole.length = 0 ∧
        min DigitRun.fractionLimit ds.length = 0) := by
      have hlimits : DigitRun.wholeLimit ≠ 0 ∧ DigitRun.fractionLimit ≠ 0 := by decide
      simp only [ne_eq, ← List.length_eq_zero_iff] at hne
      omega
    simp only [DigitRun.read_digits hfraction, if_neg hdigits, Option.getD_some,
      Option.isSome_some, List.length_append, List.length_cons]
    rw [Nat.add_assoc, Nat.add_comm 1]

end Numeral

theorem Token.read_of_isDigit {c : Char} (h : (c.isDigit || c = '.') = true) (cs : List Char) :
    read c cs = (Literal.read (c :: cs)).map fun found => (.number found.1, found.2 - 1) := by
  have hother : mark? c = none ∧ c ≠ '$' := by
    rcases Bool.or_eq_true_iff.1 h with hdigit | hpoint
    · have hall : ∀ n < 58, 48 ≤ n → mark? (Char.ofNat n) = none ∧ Char.ofNat n ≠ '$' := by decide
      have hrange := DigitRun.range_of_isDigit hdigit
      simpa using hall c.toNat (by omega) hrange.1
    · obtain rfl : c = '.' := by simpa using hpoint
      decide
  rw [read_of_mark?_eq_none hother.1, if_neg hother.2, if_pos h]

theorem Text.isSpacing_of_isDigit {c : Char} (h : (c.isDigit || c = '.') = true) :
    isSpacing c = false := by
  rcases Bool.or_eq_true_iff.1 h with hdigit | hpoint
  · have hall : ∀ n < 58, 48 ≤ n → isSpacing (Char.ofNat n) = false := by decide
    have hrange := DigitRun.range_of_isDigit hdigit
    simpa using hall c.toNat (by omega) hrange.1
  · obtain rfl : c = '.' := by simpa using hpoint
    decide

namespace Numeral

theorem chars_eq_cons (n : Numeral) :
    ∃ c piece, n.chars = c :: piece ∧ (c.isDigit || c = '.') = true := by
  have hdigits := n.isDigit_whole
  have hne := n.ne_nil
  unfold chars tail
  cases hwhole : n.whole with
  | cons c ds =>
    rw [hwhole] at hdigits
    exact ⟨c, _, rfl, by simp [hdigits c (List.mem_cons_self ..)]⟩
  | nil =>
    cases hfraction : n.fraction? with
    | some ds => exact ⟨'.', ds, rfl, rfl⟩
    | none => simp [hwhole, hfraction] at hne

theorem scan_chars (n : Numeral) :
    Scan.ofString (String.ofList n.chars) =
      ⟨[⟨.number n.literal, 0, Text.byteLength n.chars⟩], Text.byteLength n.chars, none⟩ := by
  obtain ⟨c, piece, hchars, hc⟩ := n.chars_eq_cons
  have hliteral := n.read_chars
  rw [hchars] at hliteral
  have hread : Token.read c piece = .ok (.number n.literal, piece.length) := by
    rw [Token.read_of_isDigit hc, hliteral]
    rfl
  rw [Scan.ofString, String.toList_ofList, hchars]
  exact Scan.ofChars_single (Text.isSpacing_of_isDigit hc) hread

end Numeral

def Literal.exact (l : Literal) : ℚ := l.whole.toNat + l.fraction.toNat / 10 ^ l.places

namespace Numeral

variable (n : Numeral)

def dropped : List Char := n.fraction.drop DigitRun.fractionLimit

theorem toNat_fraction :
    n.literal.fraction.toNat = decimal (n.fraction.take DigitRun.fractionLimit) := by
  apply DigitRun.toNat_decimal
  · exact fun c hc => n.isDigit_fraction c (List.mem_of_mem_take hc)
  · exact (List.length_take_le _ _).trans (by decide)

theorem toNat_whole :
    n.literal.whole.toNat = decimal (n.whole.take DigitRun.wholeLimit) % 2 ^ 64 :=
  UInt64.toNat_ofNat'

theorem ten_mul_decimal_take_le (h : DigitRun.wholeLimit < n.whole.length) :
    10 * decimal (n.whole.take DigitRun.wholeLimit) ≤ decimal n.whole := by
  have hsplit := Text.decimal_append (n.whole.take DigitRun.wholeLimit)
    (n.whole.drop DigitRun.wholeLimit)
  have hpow : 10 ^ 1 ≤ 10 ^ (n.whole.drop DigitRun.wholeLimit).length :=
    Nat.pow_le_pow_right (by decide) (by simp; omega)
  rw [List.take_append_drop] at hsplit
  rw [hsplit]
  exact Nat.le_add_right_of_le (Nat.mul_le_mul_right _ hpow)

/-- The whole part is kept, or else no more than half of it. -/
theorem whole_kept_or_halved : n.literal.whole.toNat = decimal n.whole ∨
    2 * n.literal.whole.toNat ≤ decimal n.whole ∧ 0 < decimal n.whole := by
  rw [toNat_whole]
  rcases le_or_gt n.whole.length DigitRun.wholeLimit with hshort | hlong
  · rw [List.take_of_length_le hshort]
    omega
  · have hten := n.ten_mul_decimal_take_le hlong
    omega

theorem whole_kept_iff : n.literal.whole.toNat = decimal n.whole ↔
    decimal n.whole < 2 ^ 64 ∧ (n.whole.length ≤ DigitRun.wholeLimit ∨ decimal n.whole = 0) := by
  rw [toNat_whole]
  rcases le_or_gt n.whole.length DigitRun.wholeLimit with hshort | hlong
  · rw [List.take_of_length_le hshort]
    simp only [hshort, true_or, and_true]
    omega
  · have hten := n.ten_mul_decimal_take_le hlong
    have hnot : ¬ n.whole.length ≤ DigitRun.wholeLimit := by omega
    simp only [hnot, false_or]
    omega

theorem value_eq : n.value = decimal (n.whole ++ n.fraction) / 10 ^ n.fraction.length := by
  rw [value, Text.decimal_append]
  push_cast
  field_simp

theorem value_lt : n.value < decimal n.whole + 1 := by
  have hlt : (decimal n.fraction : ℚ) < 10 ^ n.fraction.length := by
    exact_mod_cast Text.decimal_lt n.isDigit_fraction
  have hfraction : (decimal n.fraction : ℚ) / 10 ^ n.fraction.length < 1 :=
    (div_lt_one (by positivity)).2 hlt
  rw [value]
  linarith

/-- What is missing of the number: the part of the whole that wraps around, and the digits of the
fraction that are not kept. -/
theorem value_sub_exact : n.value - n.literal.exact =
    (decimal n.whole - n.literal.whole.toNat) + decimal n.dropped / 10 ^ n.fraction.length := by
  have hsplit := Text.decimal_append (n.fraction.take DigitRun.fractionLimit) n.dropped
  have hlength : n.fraction.length = n.literal.places + n.dropped.length := by
    simp only [literal, dropped, List.length_drop]
    omega
  rw [dropped, List.take_append_drop, ← dropped] at hsplit
  rw [value, Literal.exact, toNat_fraction, hsplit, hlength, pow_add]
  push_cast
  field_simp
  ring

end Numeral

/-- Whether the number that is kept agrees with the one that is written to single precision. -/
def Literal.Precise (l : Literal) (v : ℚ) : Prop := |l.exact - v| ≤ v / 2 ^ 24

namespace Numeral

variable (n : Numeral)

theorem precise_of_whole_kept (h : n.literal.whole.toNat = decimal n.whole) :
    n.literal.Precise n.value ↔ 2 ^ 24 * decimal n.dropped ≤ decimal (n.whole ++ n.fraction) := by
  have hmissing := n.value_sub_exact
  rw [h, sub_self, zero_add] at hmissing
  have hpow : (0 : ℚ) < 10 ^ n.fraction.length := by positivity
  have hnonneg : 0 ≤ (decimal n.dropped : ℚ) / 10 ^ n.fraction.length := by positivity
  rw [Literal.Precise, abs_sub_comm, hmissing, abs_of_nonneg hnonneg, value_eq, div_right_comm,
    div_le_div_iff_of_pos_right hpow, le_div_iff₀ (by positivity), mul_comm]
  exact_mod_cast Iff.rfl

theorem not_precise_of_whole_halved (h : 2 * n.literal.whole.toNat ≤ decimal n.whole)
    (hpos : 0 < decimal n.whole) : ¬ n.literal.Precise n.value := by
  have hmissing := n.value_sub_exact
  have hlt := n.value_lt
  have hnonneg : 0 ≤ (decimal n.dropped : ℚ) / 10 ^ n.fraction.length := by positivity
  have hhalf : (2 : ℚ) * n.literal.whole.toNat ≤ decimal n.whole := by exact_mod_cast h
  have hone : (1 : ℚ) ≤ decimal n.whole := by exact_mod_cast hpos
  rw [Literal.Precise, abs_sub_comm, not_le]
  apply lt_of_lt_of_le _ (le_abs_self _)
  rw [div_lt_iff₀ (by positivity)]
  linarith

/-- The text of a number is one token. Its literal holds the whole part, as far as digits are counted,
modulo the size of a word, and the first eighteen places of the fraction, which never wrap around. It
agrees with the number to single precision exactly if the whole part fits a word, is not cut off in
the count of its digits, and the places that are left out are small against all digits together. -/
theorem literal_precise_iff :
    Scan.ofString (String.ofList n.chars) =
        ⟨[⟨.number n.literal, 0, Text.byteLength n.chars⟩], Text.byteLength n.chars, none⟩ ∧
      n.literal.whole.toNat = decimal (n.whole.take 0xffffffff) % 2 ^ 64 ∧
      n.literal.fraction.toNat = decimal (n.fraction.take 18) ∧
      n.literal.places = min 18 n.fraction.length ∧
      (n.literal.Precise n.value ↔
        decimal n.whole < 2 ^ 64 ∧ (n.whole.length ≤ 0xffffffff ∨ decimal n.whole = 0) ∧
          2 ^ 24 * decimal (n.fraction.drop 18) ≤ decimal (n.whole ++ n.fraction)) := by
  refine ⟨n.scan_chars, n.toNat_whole, n.toNat_fraction, rfl, ?_⟩
  have hkept := n.whole_kept_iff
  rw [DigitRun.wholeLimit] at hkept
  rcases n.whole_kept_or_halved with hwhole | ⟨hhalved, hpos⟩
  · obtain ⟨hword, hcount⟩ := hkept.1 hwhole
    rw [n.precise_of_whole_kept hwhole]
    exact ⟨fun hdropped => ⟨hword, hcount, hdropped⟩, fun hall => hall.2.2⟩
  · have himprecise := n.not_precise_of_whole_halved hhalved hpos
    refine ⟨fun hprecise => absurd hprecise himprecise, fun hall => ?_⟩
    have hwhole := hkept.2 ⟨hall.1, hall.2.1⟩
    omega

/-- The size of a word is read as zero, and so is a one that has eighteen zeros between the point and
itself. -/
theorem literal_imprecise :
    (∃ l, Scan.ofString "18446744073709551616" = ⟨[⟨.number l, 0, 20⟩], 20, none⟩ ∧
      ¬ l.Precise 18446744073709551616) ∧
    ∃ l, Scan.ofString "0.0000000000000000001" = ⟨[⟨.number l, 0, 21⟩], 21, none⟩ ∧
      ¬ l.Precise (1 / 10 ^ 19) := by
  refine ⟨⟨⟨0, 0, 0, false⟩, rfl, ?_⟩, ⟨⟨0, 0, 18, true⟩, rfl, ?_⟩⟩
  · norm_num [Literal.Precise, Literal.exact]
  · norm_num [Literal.Precise, Literal.exact]

end Numeral

end Reckoner

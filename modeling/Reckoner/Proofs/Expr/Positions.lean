import Reckoner.Expr.Parse
import Reckoner.Proofs.Number.Whole
import Reckoner.Proofs.Token.Digits

/-! Arguments by position. A position that is too long for a word is told from every declared one, so
that no two positions are taken for the same argument. -/
namespace Reckoner

namespace Token

/-- What is read of a position: its number, or the greatest word if there are more than nineteen
digits. -/
def position (ds : List Char) : UInt64 :=
  if ds.length ≤ 19 then UInt64.ofNat (Text.decimal ds) else 0xffffffffffffffff

theorem toNat_position {ds : List Char} (h : ∀ c ∈ ds, c.isDigit = true) :
    (position ds).toNat = if ds.length ≤ 19 then Text.decimal ds else 18446744073709551615 := by
  unfold position
  split
  next hlength => exact DigitRun.toNat_decimal h hlength
  next => rfl

theorem readIndex_digits {ds : List Char} (hne : ds ≠ []) (h : ∀ c ∈ ds, c.isDigit = true) :
    readIndex ds = .ok (.index (position ds), ds.length) := by
  have hpos := List.length_pos_iff.2 hne
  have hlimit : DigitRun.wholeLimit = 4294967295 := rfl
  have hsome : ¬ min DigitRun.wholeLimit ds.length = 0 := by omega
  have hshort : min DigitRun.wholeLimit ds.length < DigitRun.indexLimit ↔ ds.length ≤ 19 := by
    rw [DigitRun.indexLimit]
    omega
  simp only [readIndex, DigitRun.read_digits h, if_neg hsome, hshort, position]
  split
  next hlength => rw [List.take_of_length_le (by omega)]
  next => rfl

end Token

theorem Expr.parse_index (A : Arithmetic) (scope : Scope) {ds : List Char} {n : UInt64}
    (hread : Token.readIndex ds = .ok (.index n, ds.length)) :
    parse A scope (String.ofList ('$' :: ds)) = (scope.resolveIndex n).map Expr.arg := by
  have hscan := Scan.ofChars_single (c := '$') rfl hread
  rw [parse, Scan.ofString, String.toList_ofList, hscan]
  dsimp only
  rw [Reading.run, Reading.start, Reading.step]
  dsimp only
  rw [Reading.readOperand]
  cases scope.resolveIndex n <;> rfl

/-- A position stands for the argument of its number if it has at most nineteen digits and the number
is that of a declared argument, and of one that an instruction can hold. Every other position is
refused under its own number, or under the greatest word if it is longer. -/
theorem Expr.parse_position (A : Arithmetic) (scope : Scope) (ds : List Char) (hne : ds ≠ [])
    (hdigits : ∀ c ∈ ds, c.isDigit = true) :
    (∀ i : UInt16, parse A scope (String.ofList ('$' :: ds)) = .ok (.arg i) ↔
      ds.length ≤ 19 ∧ Text.decimal ds = i.toNat ∧ i.toNat < scope.count ∧ i.toNat ≤ 65535) ∧
    ((¬ ∃ i, parse A scope (String.ofList ('$' :: ds)) = .ok (.arg i)) →
      ∃ index : UInt64,
        parse A scope (String.ofList ('$' :: ds)) = .error (.argNumber index scope.count) ∧
        index.toNat = if ds.length ≤ 19 then Text.decimal ds else 18446744073709551615) := by
  have hindex := Token.toNat_position hdigits
  rw [parse_index A scope (Token.readIndex_digits hne hdigits), Scope.resolveIndex]
  split
  next hfits =>
    obtain ⟨hcount, hmax⟩ := hfits
    rw [Scope.maxIndex] at hmax
    have hlength : ds.length ≤ 19 := by
      by_contra hlong
      rw [if_neg hlong] at hindex
      omega
    rw [if_pos hlength] at hindex
    have hkept : (Token.position ds).toUInt16.toNat = Text.decimal ds := by
      rw [UInt64.toNat_toUInt16, hindex]
      omega
    refine ⟨fun i => ⟨?_, ?_⟩, fun hnone => absurd ⟨_, rfl⟩ hnone⟩
    · rintro ⟨⟩
      omega
    · rintro ⟨-, hvalue, -, -⟩
      have hsame : (Token.position ds).toUInt16 = i := UInt16.toNat_inj.1 (hkept.trans hvalue)
      rw [hsame]
      rfl
  next hunfit =>
    rw [Scope.maxIndex] at hunfit
    refine ⟨fun i => ⟨fun h => by contradiction, ?_⟩, fun _ => ⟨_, rfl, hindex⟩⟩
    rintro ⟨hlength, hvalue, hcount, hmax⟩
    rw [if_pos hlength] at hindex
    omega

theorem Expr.parse_position_wrapping :
    parse .whole ⟨["x"], 2⟩ "$0000000000000000001" = .ok (.arg 1) ∧
      ∃ index : UInt64,
        parse .whole ⟨["x"], 2⟩ "$18446744073709551617" = .error (.argNumber index 2) ∧
        index.toNat = 18446744073709551615 := by
  have hzeros := parse_position .whole ⟨["x"], 2⟩ "0000000000000000001".toList (by decide)
    (List.all_eq_true.1 rfl)
  have hlong := parse_position .whole ⟨["x"], 2⟩ "18446744073709551617".toList (by decide)
    (List.all_eq_true.1 rfl)
  refine ⟨(hzeros.1 1).2 ⟨by decide, by decide, by decide, by decide⟩, hlong.2 ?_⟩
  rintro ⟨i, hi⟩
  exact absurd ((hlong.1 i).1 hi).1 (by decide)

end Reckoner

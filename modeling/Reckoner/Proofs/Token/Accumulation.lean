import Reckoner.Proofs.Token.Bytewise
import Reckoner.Proofs.Token.Digits

/-! Runs of digits among the bytes of a text. The lexer goes to the end of a run whatever its length is,
and what it keeps is the number in the first digits modulo the size of a word. -/
namespace Reckoner.Lexer

def atByte (src : List UInt8) (i : Nat) : Lexer := ⟨i, src.drop i⟩

theorem advance_atByte (src : List UInt8) (i n : Nat) :
    (atByte src i).advance n = atByte src (i + n) := by
  simp [advance, atByte]

theorem rest_head?_atByte (src : List UInt8) (i : Nat) : (atByte src i).rest.head? = src[i]? :=
  List.head?_drop

structure DigitsAt (src : List UInt8) (i n : Nat) : Prop where
  digit : ∀ j < n, ∃ b, src[i + j]? = some b ∧ isDigit b = true
  stop : ∀ b, src[i + n]? = some b → isDigit b = false

theorem digitsAt_length (src : List UInt8) (i : Nat) :
    DigitsAt src i ((src.drop i).takeWhile isDigit).length where
  digit j hj := by
    have hget := List.prefix_iff_getElem?.1 (List.takeWhile_prefix isDigit) j hj
    rw [List.getElem?_drop] at hget
    exact ⟨_, hget, List.all_eq_true.1 List.all_takeWhile _ (List.getElem_mem hj)⟩
  stop b hb := by
    rw [← List.getElem?_drop, ← List.head?_drop, drop_takeWhile] at hb
    have hhead := List.head?_dropWhile_not isDigit (src.drop i)
    rw [hb] at hhead
    exact hhead

theorem DigitsAt.unique {src : List UInt8} {i m n : Nat} (hm : DigitsAt src i m)
    (hn : DigitsAt src i n) : m = n := by
  rcases Nat.lt_trichotomy m n with hlt | heq | hlt
  · obtain ⟨b, hb, hdigit⟩ := hn.digit m hlt
    exact absurd (hm.stop b hb) (by simp [hdigit])
  · exact heq
  · obtain ⟨b, hb, hdigit⟩ := hm.digit n hlt
    exact absurd (hn.stop b hb) (by simp [hdigit])

theorem digitsAt_iff {src : List UInt8} {i n : Nat} :
    DigitsAt src i n ↔ ((src.drop i).takeWhile isDigit).length = n :=
  ⟨(digitsAt_length src i).unique, fun h => h ▸ digitsAt_length src i⟩

instance (src : List UInt8) (i n : Nat) : Decidable (DigitsAt src i n) :=
  decidable_of_iff _ digitsAt_iff.symm

def numberAt (src : List UInt8) (i n : Nat) : Nat :=
  Text.decimal (((src.drop i).take n).map Char.ofUInt8)

theorem isDigit_ofUInt8 (b : UInt8) : (Char.ofUInt8 b).isDigit = isDigit b := by
  have hval : (Char.ofUInt8 b).val = b.toUInt32 := rfl
  simp [Char.isDigit, isDigit, hval, UInt8.le_iff_toNat_le, UInt32.le_iff_toNat_le]

theorem isDigit_of_mem_map {ds : List UInt8} (h : ∀ b ∈ ds, isDigit b = true) :
    ∀ c ∈ ds.map Char.ofUInt8, c.isDigit = true := by
  intro c hc
  obtain ⟨b, hb, rfl⟩ := List.mem_map.1 hc
  rw [isDigit_ofUInt8]
  exact h b hb

theorem toUInt8_ofUInt8 (b : UInt8) : (Char.ofUInt8 b).toUInt8 = b :=
  UInt8.toUInt8_toUInt32 b

theorem foldl_bytes {ds : List UInt8} (h : ∀ b ∈ ds, isDigit b = true) :
    ds.foldl (fun v b => v * 10 + (b - 0x30).toUInt64) 0 =
      UInt64.ofNat (Text.decimal (ds.map Char.ofUInt8)) := by
  have hvalue := (foldl_digits (isDigit_of_mem_map h) 0).trans (DigitRun.foldl_digit _ 0)
  simpa [Text.decimal, toUInt8_ofUInt8, Function.comp_def] using hvalue

namespace DigitsAt

variable {src : List UInt8} {i n k : Nat}

theorem takeWhile_eq (h : DigitsAt src i n) :
    (src.drop i).takeWhile isDigit = (src.drop i).take n := by
  rw [← digitsAt_iff.1 h]
  exact List.prefix_iff_eq_take.1 (List.takeWhile_prefix isDigit)

theorem take_eq (h : DigitsAt src i n) (hk : k ≤ n) :
    (src.drop i).take k = ((src.drop i).takeWhile isDigit).take k := by
  rw [h.takeWhile_eq, List.take_take, Nat.min_eq_left hk]

theorem length_take (h : DigitsAt src i n) (hk : k ≤ n) : ((src.drop i).take k).length = k := by
  rw [h.take_eq hk, List.length_take, digitsAt_iff.1 h, Nat.min_eq_left hk]

theorem isDigit_of_mem_take (h : DigitsAt src i n) (hk : k ≤ n) :
    ∀ b ∈ (src.drop i).take k, isDigit b = true := by
  intro b hb
  rw [h.take_eq hk] at hb
  exact List.all_eq_true.1 List.all_takeWhile b (List.mem_of_mem_take hb)

theorem numberAt_lt (h : DigitsAt src i n) (hk : k ≤ n) : numberAt src i k < 10 ^ k := by
  have hlt := Text.decimal_lt (isDigit_of_mem_map (h.isDigit_of_mem_take hk))
  rwa [List.length_map, h.length_take hk] at hlt

theorem toNat_numberAt (h : DigitsAt src i n) (hk : k ≤ n) (hfits : k ≤ 19) :
    (UInt64.ofNat (numberAt src i k)).toNat = numberAt src i k := by
  apply DigitRun.toNat_decimal (isDigit_of_mem_map (h.isDigit_of_mem_take hk))
  rwa [List.length_map, h.length_take hk]

theorem digits_eq (h : DigitsAt src i n) (limit : Nat) :
    (atByte src i).digits limit =
      (⟨UInt64.ofNat (numberAt src i (min limit n)), min limit n, n⟩, atByte src (i + n)) := by
  have hmin := Nat.min_le_right limit n
  have hkept : ((src.drop i).takeWhile isDigit).take limit = (src.drop i).take (min limit n) := by
    rw [h.takeWhile_eq, List.take_take]
  have hrest : (atByte src i).rest = src.drop i := rfl
  rw [Lexer.digits_eq, hrest, kept, hkept, foldl_bytes (h.isDigit_of_mem_take hmin),
    h.length_take hmin, digitsAt_iff.1 h, advance_atByte]
  rfl

theorem number_eq {m : Nat} (h : DigitsAt src i n) (hpoint : src[i + n]? = some 0x2e)
    (hfraction : DigitsAt src (i + n + 1) m) (hsome : n ≠ 0 ∨ m ≠ 0) :
    (atByte src i).number =
      .ok (.number ⟨UInt64.ofNat (numberAt src i (min DigitRun.wholeLimit n)),
        UInt64.ofNat (numberAt src (i + n + 1) (min DigitRun.fractionLimit m)),
        min DigitRun.fractionLimit m, true⟩, atByte src (i + n + 1 + m)) := by
  have hlimit : DigitRun.wholeLimit ≠ 0 := by decide
  have hdigits : ¬ (min DigitRun.wholeLimit n = 0 ∧ i + n + 1 + m = i + n + 1) := by omega
  have hoffset (k : Nat) : (atByte src k).offset = k := rfl
  simp only [number, h.digits_eq, rest_head?_atByte, hpoint, if_true, advance_atByte,
    hfraction.digits_eq, hoffset, if_neg hdigits]

end DigitsAt

/-- For every text, every byte of it and every limit: one call goes to the first byte from there on that
is no digit, counts the digits up to the limit, and gives the number in those that are counted modulo
the size of a word, which is the number itself for up to nineteen of them. What the scan keeps of the
same characters is the same. So the fraction of a number, of which eighteen digits are counted, is read
without loss whatever its length is. -/
theorem digits_decimal (src : List UInt8) (i limit : Nat) :
    (∃ n, DigitsAt src i n ∧
      ((atByte src i).digits limit).2 = atByte src (i + n) ∧
      ((atByte src i).digits limit).1.count = min limit n ∧
      ((atByte src i).digits limit).1.value.toNat = numberAt src i (min limit n) % 2 ^ 64 ∧
      (((atByte src i).digits limit).1.count ≤ 19 →
        ((atByte src i).digits limit).1.value.toNat = numberAt src i (min limit n))) ∧
    (∀ cs, src.drop i = Text.encode cs →
      ((atByte src i).digits limit).1 = DigitRun.read limit cs) ∧
    ∀ n m, DigitsAt src i n → src[i + n]? = some 0x2e → DigitsAt src (i + n + 1) m →
      n ≠ 0 ∨ m ≠ 0 →
      ∃ l : Literal, (atByte src i).number = .ok (.number l, atByte src (i + n + 1 + m)) ∧
        l.places = min 18 m ∧ l.fraction.toNat = numberAt src (i + n + 1) (min 18 m) ∧
        l.fraction.toNat < 10 ^ 18 := by
  refine ⟨⟨_, digitsAt_length src i, ?_⟩, ?_, ?_⟩
  · have h := digitsAt_length src i
    rw [h.digits_eq limit]
    exact ⟨rfl, rfl, UInt64.toNat_ofNat', h.toNat_numberAt (Nat.min_le_right ..)⟩
  · intro cs hcs
    have hlexer : atByte src i = ofChars i cs := by rw [atByte, hcs, ofChars]
    rw [hlexer, digits_ofChars]
  · intro n m h hpoint hfraction hsome
    have hexact := hfraction.toNat_numberAt (Nat.min_le_right 18 m)
      ((Nat.min_le_left 18 m).trans (by decide))
    have hlt : numberAt src (i + n + 1) (min 18 m) < 10 ^ 18 :=
      (hfraction.numberAt_lt (Nat.min_le_right 18 m)).trans_le
        (Nat.pow_le_pow_right (by decide) (Nat.min_le_left 18 m))
    refine ⟨_, h.number_eq hpoint hfraction hsome, rfl, hexact, ?_⟩
    exact hexact.trans_lt hlt

theorem digits_decimal_long_fraction :
    DigitsAt (Text.bytes "7.12345678901234567890") 2 20 ∧
      ∃ l : Literal, (atByte (Text.bytes "7.12345678901234567890") 0).number =
          .ok (.number l, atByte (Text.bytes "7.12345678901234567890") 22) ∧
        l.places = 18 ∧ l.fraction.toNat = 123456789012345678 := by
  have hwhole : DigitsAt (Text.bytes "7.12345678901234567890") 0 1 := by decide +kernel
  have hfraction : DigitsAt (Text.bytes "7.12345678901234567890") 2 20 := by decide +kernel
  have hnumber : numberAt (Text.bytes "7.12345678901234567890") 2 18 = 123456789012345678 := by
    decide +kernel
  obtain ⟨-, -, hliteral⟩ := digits_decimal (Text.bytes "7.12345678901234567890") 0 18
  obtain ⟨l, hread, hplaces, hvalue, -⟩ := hliteral 1 20 hwhole rfl hfraction (.inl (by decide))
  exact ⟨hfraction, l, hread, hplaces, hvalue.trans hnumber⟩

end Reckoner.Lexer

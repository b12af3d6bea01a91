import Reckoner.Text.Bytes
import Reckoner.Token.Lexer

/-! Characters and the bytes of their UTF-8 form. A class of bytes matches a class of characters if
all bytes of a character are in the one exactly if the character is in the other; then reading on to
the end of a class comes to the same place in both forms. -/
namespace Reckoner.Text

def encode (cs : List Char) : List UInt8 := cs.flatMap String.utf8EncodeChar

@[simp] theorem encode_nil : encode [] = [] := rfl

@[simp] theorem encode_cons (c : Char) (cs : List Char) :
    encode (c :: cs) = String.utf8EncodeChar c ++ encode cs := by simp [encode]

@[simp] theorem encode_append (as bs : List Char) : encode (as ++ bs) = encode as ++ encode bs := by
  simp [encode]

@[simp] theorem length_encode (cs : List Char) : (encode cs).length = byteLength cs := by
  induction cs with
  | nil => rfl
  | cons c cs ih => simp [ih]

theorem encode_toList (s : String) : encode s.toList = bytes s := by
  have h : s.toByteArray = (encode s.toList).toByteArray := String.utf8Encode_toList.symm
  rw [bytes, h, List.toList_data_toByteArray]

theorem byteLength_toList (s : String) : byteLength s.toList = s.utf8ByteSize := by
  rw [← length_encode, encode_toList, bytes]
  simp

theorem bytes_ofList (cs : List Char) : bytes (String.ofList cs) = encode cs := by
  rw [← encode_toList, String.toList_ofList]

theorem isValid_of_append {s : String} {before after : List Char}
    (h : s.toList = before ++ after) : String.Pos.Raw.IsValid s ⟨byteLength before⟩ := by
  rw [String.Pos.Raw.isValid_iff_exists_append]
  refine ⟨String.ofList before, String.ofList after, ?_, ?_⟩
  · rw [← String.ofList_append, ← h, String.ofList_toList]
  · rw [String.rawEndPos, ← byteLength_toList, String.toList_ofList]

theorem utf8EncodeChar_of_lt {c : Char} (h : c.toNat < 0x80) :
    String.utf8EncodeChar c = [c.toUInt8] := by
  apply String.utf8EncodeChar_eq_singleton
  rw [Char.utf8Size_eq_one_iff, UInt32.le_iff_toNat_le]
  exact Nat.le_of_lt_succ h

theorem le_of_mem_utf8EncodeChar {c : Char} (h : 0x80 ≤ c.toNat) {b : UInt8}
    (hb : b ∈ String.utf8EncodeChar c) : 0x80 ≤ b.toNat := by
  have hlarge : ¬ c.val.toNat ≤ 127 := by
    have : c.toNat = c.val.toNat := rfl
    omega
  rw [String.utf8EncodeChar.eq_1, if_neg hlarge] at hb
  split at hb
  · simp only [List.mem_cons, List.not_mem_nil, or_false] at hb
    rcases hb with rfl | rfl <;> rw [UInt8.toNat_ofNat'] <;> omega
  · split at hb
    · simp only [List.mem_cons, List.not_mem_nil, or_false] at hb
      rcases hb with rfl | rfl | rfl <;> rw [UInt8.toNat_ofNat'] <;> omega
    · simp only [List.mem_cons, List.not_mem_nil, or_false] at hb
      rcases hb with rfl | rfl | rfl | rfl <;> rw [UInt8.toNat_ofNat'] <;> omega

/-- All bytes of a character are in the class `p` exactly if the character is in the class `q`. -/
def Matches (p : UInt8 → Bool) (q : Char → Bool) : Prop :=
  ∀ c, ∀ b ∈ String.utf8EncodeChar c, p b = q c

theorem Matches.of_ascii {p : UInt8 → Bool} {q : Char → Bool} (beyond : Bool)
    (hascii : ∀ n < 0x80, p (UInt8.ofNat n) = q (Char.ofNat n))
    (hbyte : ∀ b : UInt8, 0x80 ≤ b.toNat → p b = beyond)
    (hchar : ∀ c : Char, 0x80 ≤ c.toNat → q c = beyond) : Matches p q := by
  intro c b hb
  by_cases hc : c.toNat < 0x80
  · rw [utf8EncodeChar_of_lt hc, List.mem_singleton] at hb
    have hchar : Char.ofNat c.toNat = c := by simp
    have hbyte : UInt8.ofNat c.toNat = c.toUInt8 := rfl
    rw [hb, ← hbyte, hascii c.toNat hc, hchar]
  · have hc : 0x80 ≤ c.toNat := Nat.not_lt.1 hc
    rw [hbyte b (le_of_mem_utf8EncodeChar hc hb), hchar c hc]

namespace Matches

variable {p : UInt8 → Bool} {q : Char → Bool}

theorem spacing : Matches Lexer.isSpacing isSpacing := by
  apply of_ascii false (by decide)
  · intro b hb
    simp only [Lexer.isSpacing, ← UInt8.toNat_inj, UInt8.reduceToNat]
    simp
    omega
  · intro c hc
    simp only [isSpacing, ← Char.toNat_inj, Char.reduceToNat]
    simp
    omega

theorem digit : Matches Lexer.isDigit Char.isDigit := by
  apply of_ascii false (by decide)
  · intro b hb
    simp [Lexer.isDigit, UInt8.le_iff_toNat_le]
    omega
  · intro c hc
    have : c.toNat = c.val.toNat := rfl
    simp [Char.isDigit, UInt32.le_iff_toNat_le]
    omega

theorem word : Matches Lexer.isWord Token.isWordChar := by
  apply of_ascii true (by decide)
  · intro b hb
    simp [Lexer.isWord, UInt8.le_iff_toNat_le, hb]
  · intro c hc
    simp [Token.isWordChar, hc]

theorem exactly {k : Char} (hk : k.toNat < 0x80) : Matches (· = k.toUInt8) (· = k) := by
  have hbyte : k.toUInt8.toNat = k.toNat := by
    have : k.toNat = k.val.toNat := rfl
    exact Nat.mod_eq_of_lt (by omega)
  have hchar : ∀ n < 0x80, (Char.ofNat n).toNat = n := by decide
  apply of_ascii false
  · intro n hn
    have hlow : (UInt8.ofNat n).toNat = n := Nat.mod_eq_of_lt (by omega)
    simp only [← UInt8.toNat_inj, ← Char.toNat_inj, hchar n hn, hbyte, hlow]
  · intro b hb
    simp only [← UInt8.toNat_inj, hbyte, decide_eq_false_iff_not]
    omega
  · intro c hc
    simp only [← Char.toNat_inj, decide_eq_false_iff_not]
    omega

theorem takeWhile_encode (h : Matches p q) (cs : List Char) :
    (encode cs).takeWhile p = encode (cs.takeWhile q) := by
  induction cs with
  | nil => rfl
  | cons c cs ih =>
    rw [encode_cons]
    cases hc : q c with
    | true =>
      have hall : ∀ b ∈ String.utf8EncodeChar c, p b = true := fun b hb => (h c b hb).trans hc
      rw [List.takeWhile_append_of_pos hall, List.takeWhile_cons_of_pos hc, ih, encode_cons]
    | false =>
      rw [List.takeWhile_cons_of_neg (by simp [hc])]
      cases hbytes : String.utf8EncodeChar c with
      | nil => exact absurd hbytes String.utf8EncodeChar_ne_nil
      | cons b rest =>
        have hb : p b = false := (h c b (by simp [hbytes])).trans hc
        simp [hb]

end Matches

theorem encode_cons_eq (c : Char) (cs : List Char) :
    ∃ b rest, encode (c :: cs) = b :: rest ∧ b ∈ String.utf8EncodeChar c := by
  cases hbytes : String.utf8EncodeChar c with
  | nil => exact absurd hbytes String.utf8EncodeChar_ne_nil
  | cons b rest => exact ⟨b, rest ++ encode cs, by simp [hbytes], by simp⟩

theorem head?_encode_eq_some_iff {k : Char} (hk : k.toNat < 0x80) (cs : List Char) :
    (encode cs).head? = some k.toUInt8 ↔ cs.head? = some k := by
  cases cs with
  | nil => simp
  | cons c cs =>
    obtain ⟨b, rest, hbytes, hb⟩ := encode_cons_eq c cs
    have hexactly := Matches.exactly hk c b hb
    simp only [decide_eq_decide] at hexactly
    simp [hbytes, hexactly]

theorem encode_of_ascii {cs : List Char} (h : ∀ c ∈ cs, c.toNat < 0x80) :
    encode cs = cs.map Char.toUInt8 := by
  induction cs with
  | nil => rfl
  | cons c cs ih =>
    rw [List.forall_mem_cons] at h
    rw [encode_cons, utf8EncodeChar_of_lt h.1, ih h.2]
    rfl

theorem byteLength_of_ascii {cs : List Char} (h : ∀ c ∈ cs, c.toNat < 0x80) :
    byteLength cs = cs.length := by
  rw [← length_encode, encode_of_ascii h, List.length_map]

/-! Text that was encoded is read without replacements. -/

theorem charsLossy_skip (skip : Nat) (bytes : List UInt8) :
    charsLossy skip bytes = charsLossy 0 (bytes.drop skip) := by
  induction bytes generalizing skip with
  | nil => simp [charsLossy]
  | cons b bytes ih =>
    cases skip with
    | zero => rfl
    | succ skip => simp [charsLossy, ih]

theorem charsLossy_encode (cs : List Char) : charsLossy 0 (encode cs) = cs := by
  induction cs with
  | nil => rfl
  | cons c cs ih =>
    obtain ⟨b, rest, hbytes, -⟩ := encode_cons_eq c cs
    have hdecode : (b :: rest).toByteArray.utf8DecodeChar? 0 = some c := by
      rw [← hbytes, encode_cons, List.toByteArray_append]
      exact ByteArray.utf8DecodeChar?_utf8EncodeChar_append
    have hrest : rest.drop (c.utf8Size - 1) = encode cs := by
      have hsize := c.utf8Size_pos
      have hdrop : (encode (c :: cs)).drop c.utf8Size = encode cs := by simp
      rw [hbytes] at hdrop
      obtain ⟨n, hn⟩ : ∃ n, c.utf8Size = n + 1 := ⟨c.utf8Size - 1, by omega⟩
      simpa [hn] using hdrop
    rw [hbytes, charsLossy, hdecode]
    dsimp only
    rw [charsLossy_skip, hrest, ih]

theorem ofBytesLossy_encode (cs : List Char) : ofBytesLossy (encode cs) = String.ofList cs := by
  rw [ofBytesLossy, charsLossy_encode]

/-- Elsewhere a start of a character is replaced as a whole. -/
example : ofBytesLossy [0x78, 0xe2, 0x82, 0x2b, 0xff] = "x\ufffd+\ufffd" := by decide

end Reckoner.Text

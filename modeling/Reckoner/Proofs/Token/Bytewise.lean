import Reckoner.Proofs.Text.Encoding
import Reckoner.Proofs.Token.Layout

/-! The lexer goes through the bytes of a text as the scan goes through its characters. Every class
of bytes that it reads on matches a class of characters, so that between two calls it always stands
in front of a character. -/
namespace Reckoner

open Text (byteLength encode Matches)

namespace Lexer

def ofChars (offset : Nat) (cs : List Char) : Lexer := ⟨offset, encode cs⟩

@[simp] theorem offset_ofChars (offset : Nat) (cs : List Char) :
    (ofChars offset cs).offset = offset := rfl

theorem ofString_eq (s : String) : ofString s = ofChars 0 s.toList := by
  rw [ofString, ofChars, Text.encode_toList]

theorem advance_append (offset : Nat) (as bs : List Char) :
    (ofChars offset (as ++ bs)).advance (byteLength as) = ofChars (offset + byteLength as) bs := by
  simp only [advance, ofChars, Text.encode_append]
  rw [← Text.length_encode as, List.drop_left]

theorem advance_takeWhile {p : UInt8 → Bool} {q : Char → Bool} (h : Matches p q) (offset : Nat)
    (cs : List Char) :
    (ofChars offset cs).advance ((ofChars offset cs).rest.takeWhile p).length =
      ofChars (offset + byteLength (cs.takeWhile q)) (cs.dropWhile q) := by
  have hlength : ((ofChars offset cs).rest.takeWhile p).length = byteLength (cs.takeWhile q) := by
    rw [ofChars, h.takeWhile_encode, Text.length_encode]
  rw [hlength]
  simpa using advance_append offset (cs.takeWhile q) (cs.dropWhile q)

theorem skipSpacing_ofChars (offset : Nat) (cs : List Char) :
    (ofChars offset cs).skipSpacing =
      ofChars (offset + byteLength (cs.takeWhile Text.isSpacing)) (cs.dropWhile Text.isSpacing) :=
  advance_takeWhile Matches.spacing offset cs

theorem ascii_of_isDigit {c : Char} (h : c.isDigit = true) : c.toNat < 0x80 := by
  have := DigitRun.range_of_isDigit h
  omega

theorem ascii_of_mem_takeWhile {cs : List Char} : ∀ c ∈ cs.takeWhile Char.isDigit, c.toNat < 0x80 :=
  fun c hc => ascii_of_isDigit (List.all_eq_true.1 List.all_takeWhile c hc)

theorem foldl_digits {ds : List Char} (h : ∀ c ∈ ds, c.isDigit = true) (v : UInt64) :
    (ds.map Char.toUInt8).foldl (fun v b => v * 10 + (b - 0x30).toUInt64) v =
      ds.foldl (fun v c => v * 10 + DigitRun.digit c) v := by
  have hall : ∀ n < 0x80, (Char.ofNat n).isDigit = true →
      ((Char.ofNat n).toUInt8 - 0x30).toUInt64 = DigitRun.digit (Char.ofNat n) := by
    decide
  induction ds generalizing v with
  | nil => rfl
  | cons c ds ih =>
    rw [List.forall_mem_cons] at h
    have hdigit : (c.toUInt8 - 0x30).toUInt64 = DigitRun.digit c := by
      simpa [h.1] using hall c.toNat (ascii_of_isDigit h.1)
    rw [List.map_cons, List.foldl_cons, List.foldl_cons, hdigit, ih h.2]

def kept (limit : Nat) (ds : List UInt8) : DigitRun :=
  ⟨(ds.take limit).foldl (fun v b => v * 10 + (b - 0x30).toUInt64) 0, (ds.take limit).length,
    ds.length⟩

theorem push_kept (limit : Nat) (ds : List UInt8) (b : UInt8) :
    (kept limit ds).push limit (b - 0x30).toUInt64 = kept limit (ds ++ [b]) := by
  have hcount : (kept limit ds).count = min limit ds.length := List.length_take ..
  by_cases hroom : ds.length < limit
  · have hold : ds.take limit = ds := List.take_of_length_le (Nat.le_of_lt hroom)
    have hnew : (ds ++ [b]).take limit = ds ++ [b] :=
      List.take_of_length_le (by rw [List.length_append]; exact hroom)
    rw [DigitRun.push, if_pos (by omega), kept, kept, hold, hnew, List.foldl_append,
      List.length_append]
    rfl
  · rw [DigitRun.push, if_neg (by omega), kept, kept, List.take_append_of_le_length (by omega),
      List.length_append]
    rfl

theorem digitsFrom_kept (limit offset : Nat) (ds bs : List UInt8) :
    digitsFrom limit (kept limit ds) offset bs =
      (kept limit (ds ++ bs.takeWhile isDigit),
        advance ⟨offset, bs⟩ (bs.takeWhile isDigit).length) := by
  induction bs generalizing ds offset with
  | nil => simp [digitsFrom, advance]
  | cons b bs ih =>
    cases hb : isDigit b with
    | true =>
      rw [digitsFrom, if_pos hb, push_kept, ih, List.takeWhile_cons_of_pos hb, List.append_assoc,
        List.singleton_append]
      simp [advance, Nat.add_assoc, Nat.add_comm 1]
    | false => simp [digitsFrom, advance, hb]

theorem digits_eq (limit : Nat) (l : Lexer) :
    l.digits limit =
      (kept limit (l.rest.takeWhile isDigit), l.advance (l.rest.takeWhile isDigit).length) := by
  have hnone : kept limit [] = ⟨0, 0, 0⟩ := by simp [kept]
  rw [digits, ← hnone, digitsFrom_kept, List.nil_append]

theorem digits_ofChars (limit offset : Nat) (cs : List Char) :
    (ofChars offset cs).digits limit =
      (DigitRun.read limit cs,
        ofChars (offset + (DigitRun.read limit cs).length)
          (cs.drop (DigitRun.read limit cs).length)) := by
  have hrun : (ofChars offset cs).rest.takeWhile isDigit =
      (cs.takeWhile Char.isDigit).map Char.toUInt8 := by
    rw [ofChars, Matches.digit.takeWhile_encode, Text.encode_of_ascii ascii_of_mem_takeWhile]
  have hkept : ∀ c ∈ (cs.takeWhile Char.isDigit).take limit, c.isDigit = true :=
    fun c hc => List.all_eq_true.1 List.all_takeWhile c (List.mem_of_mem_take hc)
  have hadvance := advance_takeWhile Matches.digit offset cs
  rw [Text.byteLength_of_ascii ascii_of_mem_takeWhile, ← drop_takeWhile] at hadvance
  rw [digits_eq, hadvance, kept, hrun, ← List.map_take, foldl_digits hkept]
  simp [DigitRun.read]

theorem rest_head?_ofChars {k : Char} (hk : k.toNat < 0x80) (offset : Nat) (cs : List Char) :
    (ofChars offset cs).rest.head? = some k.toUInt8 ↔ cs.head? = some k :=
  Text.head?_encode_eq_some_iff hk cs

theorem count_read_eq_zero_iff (limit : Nat) (hlimit : 0 < limit) (cs : List Char) :
    (DigitRun.read limit cs).count = 0 ↔ (DigitRun.read limit cs).length = 0 := by
  simp only [DigitRun.read, List.length_take]
  omega

theorem number_ofChars (offset : Nat) (cs : List Char) :
    (ofChars offset cs).number =
      (Literal.read cs).map fun found =>
        (.number found.1, ofChars (offset + found.2) (cs.drop found.2)) := by
  have hpoint := rest_head?_ofChars (k := '.') (by decide)
  have hbyte : (0x2e : UInt8) = '.'.toUInt8 := rfl
  simp only [number, Literal.read, digits_ofChars, hbyte, hpoint]
  generalize hwhole : DigitRun.read DigitRun.wholeLimit cs = whole
  cases hdrop : cs.drop whole.length with
  | nil => simp [Except.map, hdrop]
  | cons d rest =>
    by_cases hd : d = '.'
    · subst hd
      have hadvance : (ofChars (offset + whole.length) ('.' :: rest)).advance 1 =
          ofChars (offset + whole.length + 1) rest := advance_append _ ['.'] rest
      have hrest (n : Nat) : cs.drop (whole.length + 1 + n) = rest.drop n := by
        rw [Nat.add_assoc, ← List.drop_drop, hdrop, Nat.add_comm 1, List.drop_succ_cons]
      have hzero := count_read_eq_zero_iff DigitRun.fractionLimit (by decide) rest
      simp only [List.head?_cons, if_true, hadvance, digits_ofChars, hzero]
      generalize DigitRun.read DigitRun.fractionLimit rest = fraction
      -- The lexer compares places where the scan compares numbers of digits.
      have hempty : offset + whole.length + 1 + fraction.length = offset + whole.length + 1 ↔
          fraction.length = 0 := by omega
      simp only [offset_ofChars, hempty]
      by_cases h : whole.count = 0 ∧ fraction.length = 0
      · rw [if_pos h, if_pos h]
        rfl
      · rw [if_neg h, if_neg h]
        simp only [Except.map, hrest, ← Nat.add_assoc]
    · simp [hd, Except.map, hdrop]

theorem word_ofChars (offset : Nat) (cs : List Char) :
    (ofChars offset cs).word =
      (.word (String.ofList (cs.takeWhile Token.isWordChar))
        ((cs.dropWhile Token.isWordChar).head? = some '('),
        ofChars (offset + byteLength (cs.takeWhile Token.isWordChar))
          (cs.dropWhile Token.isWordChar)) := by
  have hname : Text.ofBytesLossy ((ofChars offset cs).rest.takeWhile isWord) =
      String.ofList (cs.takeWhile Token.isWordChar) := by
    rw [ofChars, Matches.word.takeWhile_encode, Text.ofBytesLossy_encode]
  have hopening := rest_head?_ofChars (k := '(') (by decide)
  have hbyte : (0x28 : UInt8) = '('.toUInt8 := rfl
  simp only [word, hname, advance_takeWhile Matches.word, hbyte, hopening]

/-! Digits and points are single bytes, so that a number takes as many bytes as characters. -/

theorem byteLength_take_digits (limit : Nat) (cs : List Char) :
    byteLength (cs.take (DigitRun.read limit cs).length) = (DigitRun.read limit cs).length := by
  have htake : cs.take (DigitRun.read limit cs).length = cs.takeWhile Char.isDigit :=
    (List.prefix_iff_eq_take.1 (List.takeWhile_prefix Char.isDigit)).symm
  rw [htake, Text.byteLength_of_ascii ascii_of_mem_takeWhile]
  rfl

theorem byteLength_take_literal {cs : List Char} {l : Literal} {n : Nat}
    (h : Literal.read cs = .ok (l, n)) : byteLength (cs.take n) = n := by
  have hwhole := byteLength_take_digits DigitRun.wholeLimit cs
  unfold Literal.read at h
  dsimp only at h
  split at h
  next rest hrest =>
    have hfraction := byteLength_take_digits DigitRun.fractionLimit rest
    split at h
    next => contradiction
    next =>
      simp only [Except.ok.injEq, Prod.mk.injEq] at h
      rw [← h.2, Nat.add_assoc, List.take_add, hrest, Nat.add_comm 1, List.take_succ_cons,
        Text.byteLength_append, Text.byteLength_cons, hwhole, hfraction]
      have hpoint : '.'.utf8Size = 1 := rfl
      omega
  next =>
    simp only [Except.ok.injEq, Prod.mk.injEq] at h
    rw [← h.2, hwhole]

theorem pos_of_read_literal {c : Char} {cs : List Char} {l : Literal} {n : Nat}
    (hc : (c.isDigit || c = '.') = true) (h : Literal.read (c :: cs) = .ok (l, n)) : 0 < n := by
  unfold Literal.read at h
  dsimp only at h
  split at h
  next rest hrest =>
    split at h
    next => contradiction
    next =>
      simp only [Except.ok.injEq, Prod.mk.injEq] at h
      omega
  next hnone =>
    simp only [Except.ok.injEq, Prod.mk.injEq] at h
    cases hdigit : c.isDigit with
    | true =>
      rw [← h.2]
      simp [DigitRun.read, hdigit]
    | false =>
      have hpoint : c = '.' := by simpa [hdigit] using hc
      have hlength : (DigitRun.read DigitRun.wholeLimit (c :: cs)).length = 0 := by
        simp [DigitRun.read, hdigit]
      rw [hlength, hpoint] at hnone
      exact absurd rfl (hnone cs)

def behind (offset : Nat) (c : Char) (cs : List Char) (n : Nat) : Lexer :=
  ofChars (offset + byteLength (c :: cs.take n)) (cs.drop n)

theorem number_behind {c : Char} (hc : (c.isDigit || c = '.') = true) (offset : Nat)
    (cs : List Char) :
    (ofChars offset (c :: cs)).number =
      (Literal.read (c :: cs)).map fun found =>
        (.number found.1, behind offset c cs (found.2 - 1)) := by
  rw [number_ofChars]
  cases hread : Literal.read (c :: cs) with
  | error cause => rfl
  | ok found =>
    have hpos := pos_of_read_literal hc hread
    have hbytes := byteLength_take_literal hread
    obtain ⟨m, hm⟩ : ∃ m, found.2 = m + 1 := ⟨found.2 - 1, by omega⟩
    rw [hm, List.take_succ_cons] at hbytes
    simp only [Except.map, behind, hm, Nat.add_sub_cancel, List.drop_succ_cons, hbytes]

theorem index_behind (offset : Nat) (cs : List Char) :
    ((ofChars offset ('$' :: cs)).advance 1).index =
      (Token.readIndex cs).map fun found => (found.1, behind offset '$' cs found.2) := by
  have hadvance : (ofChars offset ('$' :: cs)).advance 1 = ofChars (offset + 1) cs :=
    advance_append offset ['$'] cs
  have hdollar : '$'.utf8Size = 1 := rfl
  simp only [hadvance, index, Token.readIndex, digits_ofChars]
  split
  · rfl
  · simp only [Except.map, behind, Text.byteLength_cons, hdollar, byteLength_take_digits,
      Nat.add_assoc]

theorem word_behind {c : Char} (hc : Token.isWordChar c = true) (offset : Nat) (cs : List Char) :
    (ofChars offset (c :: cs)).word =
      (.word (String.ofList (c :: cs.takeWhile Token.isWordChar))
        ((cs.drop (cs.takeWhile Token.isWordChar).length).head? = some '('),
        behind offset c cs (cs.takeWhile Token.isWordChar).length) := by
  have htake : cs.take (cs.takeWhile Token.isWordChar).length = cs.takeWhile Token.isWordChar :=
    (List.prefix_iff_eq_take.1 (List.takeWhile_prefix Token.isWordChar)).symm
  rw [word_ofChars, List.takeWhile_cons_of_pos hc, List.dropWhile_cons_of_pos hc, behind,
    drop_takeWhile, htake]

/-! The token that starts with a character, read from any of its bytes. -/

section Dispatch

variable {c : Char} {b : UInt8}

theorem token_of_mark? {t : Token} (h : Token.mark? c = some t)
    (hb : b ∈ String.utf8EncodeChar c) (l : Lexer) : l.token b = .ok (t, l.advance c.utf8Size) := by
  have hmark (k : Char) (u : Token) (hk : k.toNat < 0x80)
      (htoken : l.token k.toUInt8 = .ok (u, l.advance k.utf8Size)) (hc : c = k) (hu : u = t) :
      l.token b = .ok (t, l.advance c.utf8Size) := by
    subst hc
    rw [Text.utf8EncodeChar_of_lt hk, List.mem_singleton] at hb
    rw [hb, htoken, hu]
  unfold Token.mark? at h
  split at h
  next hc => exact hmark '(' .opening (by decide) rfl hc (Option.some.inj h)
  split at h
  next hc => exact hmark ')' .closing (by decide) rfl hc (Option.some.inj h)
  split at h
  next hc => exact hmark '+' (.operator .add) (by decide) rfl hc (Option.some.inj h)
  split at h
  next hc => exact hmark '-' (.operator .sub) (by decide) rfl hc (Option.some.inj h)
  split at h
  next hc => exact hmark '*' (.operator .mul) (by decide) rfl hc (Option.some.inj h)
  split at h
  next hc => exact hmark '/' (.operator .div) (by decide) rfl hc (Option.some.inj h)
  contradiction

theorem ofUInt8_of_mem (hc : c.toNat < 0x80) (hb : b ∈ String.utf8EncodeChar c) :
    Char.ofUInt8 b = c := by
  rw [Text.utf8EncodeChar_of_lt hc, List.mem_singleton] at hb
  have hbits : c.val.toNat % 256 = c.val.toNat := Nat.mod_eq_of_lt (Nat.lt_trans hc (by decide))
  rw [hb]
  apply Char.ext
  apply UInt32.toNat_inj.1
  exact hbits

theorem token_of_mark?_eq_none (h : Token.mark? c = none) (hb : b ∈ String.utf8EncodeChar c)
    (l : Lexer) :
    l.token b =
      if c = '$' then (l.advance 1).index
      else if c.isDigit || c = '.' then l.number
      else if Token.isWordChar c then .ok l.word
      else .error (.unexpectedCharacter c) := by
  have hbyte (k : Char) (hk : k.toNat < 0x80) : b = k.toUInt8 ↔ c = k := by
    simpa using Matches.exactly hk c b hb
  have hbytes : (b = 0x28 ↔ c = '(') ∧ (b = 0x29 ↔ c = ')') ∧ (b = 0x2b ↔ c = '+') ∧
      (b = 0x2d ↔ c = '-') ∧ (b = 0x2a ↔ c = '*') ∧ (b = 0x2f ↔ c = '/') ∧
      (b = 0x24 ↔ c = '$') ∧ (b = 0x2e ↔ c = '.') :=
    ⟨hbyte '(' (by decide), hbyte ')' (by decide), hbyte '+' (by decide), hbyte '-' (by decide),
      hbyte '*' (by decide), hbyte '/' (by decide), hbyte '$' (by decide), hbyte '.' (by decide)⟩
  obtain ⟨hopening, hclosing, hadd, hsub, hmul, hdiv⟩ := Token.ne_of_mark?_eq_none h
  have hdigit : isDigit b = c.isDigit := Matches.digit c b hb
  have hword : isWord b = Token.isWordChar c := Matches.word c b hb
  simp only [token, hbytes, hdigit, hword, if_neg hopening, if_neg hclosing, if_neg hadd,
    if_neg hsub, if_neg hmul, if_neg hdiv]
  by_cases hletter : Token.isWordChar c = true
  · simp [hletter]
  · -- Names take every character beyond ASCII, so one that is refused is its own byte.
    have hascii : c.toNat < 0x80 := by
      simp [Token.isWordChar] at hletter
      omega
    rw [ofUInt8_of_mem hascii hb]

end Dispatch

theorem token_ofChars {c : Char} {b : UInt8} (hb : b ∈ String.utf8EncodeChar c) (offset : Nat)
    (cs : List Char) :
    (ofChars offset (c :: cs)).token b =
      (Token.read c cs).map fun found => (found.1, behind offset c cs found.2) := by
  cases hmark : Token.mark? c with
  | some t =>
    have hadvance := advance_append offset [c] cs
    rw [token_of_mark? hmark hb, Token.read_of_mark? hmark]
    simpa [Except.map, behind] using hadvance
  | none =>
    rw [token_of_mark?_eq_none hmark hb, Token.read_of_mark?_eq_none hmark]
    split
    next hdollar =>
      subst hdollar
      exact index_behind offset cs
    split
    next hnumber =>
      rw [number_behind hnumber]
      cases Literal.read (c :: cs) <;> rfl
    split
    next hletter =>
      rw [word_behind hletter]
      rfl
    rfl

end Lexer

theorem Scan.ofChars_spacing (offset : Nat) (cs : List Char) :
    ofChars 0 offset cs =
      ofChars 0 (offset + byteLength (cs.takeWhile Text.isSpacing))
        (cs.dropWhile Text.isSpacing) := by
  induction cs generalizing offset with
  | nil => rfl
  | cons c cs ih =>
    cases hc : Text.isSpacing c with
    | true => simp [ofChars, hc, ih (offset + c.utf8Size), Nat.add_assoc]
    | false => simp [hc]

/-- Call by call the lexer finds the tokens of the scan, and one call more finds its end. -/
theorem Lexer.drain_ofChars (calls offset : Nat) (cs : List Char)
    (h : (Scan.ofChars 0 offset cs).tokens.length < calls) :
    (ofChars offset cs).drain calls = some (Scan.ofChars 0 offset cs) := by
  induction calls generalizing offset cs with
  | zero => omega
  | succ calls ih =>
    rw [Scan.ofChars_spacing] at h ⊢
    rw [drain, next, skipSpacing_ofChars]
    generalize offset + byteLength (cs.takeWhile Text.isSpacing) = place at h ⊢
    cases hrest : cs.dropWhile Text.isSpacing with
    | nil => rfl
    | cons c rest =>
      have hc : Text.isSpacing c = false := by
        have hhead := List.head?_dropWhile_not Text.isSpacing cs
        rwa [hrest] at hhead
      obtain ⟨b, bytes, hbytes, hb⟩ := Text.encode_cons_eq c rest
      have hnext : (ofChars place (c :: rest)).rest = b :: bytes := hbytes
      rw [hrest] at h
      simp only [Scan.ofChars, hc, Bool.false_eq_true, if_false] at h ⊢
      simp only [hnext, token_ofChars hb]
      cases hread : Token.read c rest with
      | error cause => rfl
      | ok found =>
        obtain ⟨t, n⟩ := found
        have hskip : Scan.ofChars n (place + c.utf8Size) rest =
            Scan.ofChars 0 (place + (c.utf8Size + byteLength (rest.take n))) (rest.drop n) := by
          rw [Scan.ofChars_skip, Nat.add_assoc]
        simp only [hread, hskip, Scan.cons, List.length_cons] at h
        have hdrain := ih (place + (c.utf8Size + byteLength (rest.take n))) (rest.drop n) (by omega)
        simp only [Except.map, behind, Text.byteLength_cons, hdrain, Option.map_some, hskip,
          offset_ofChars, Nat.add_assoc]

/-! What the scan leaves out. -/

theorem getElem?_encode_append {offset i : Nat} {first : List Char}
    (h : offset + byteLength first ≤ i) (cs : List Char) :
    (encode (first ++ cs))[i - offset]? = (encode cs)[i - (offset + byteLength first)]? := by
  rw [Text.encode_append, List.getElem?_append_right (by rw [Text.length_encode]; omega),
    Text.length_encode, Nat.sub_sub]

theorem Scan.Cuts.blank_byte {offset : Nat} {cs : List Char} {scan : Scan}
    (h : Cuts offset cs scan) (i : Nat) (hlow : offset ≤ i) (hhigh : i < scan.stop)
    (hout : ∀ t ∈ scan.tokens, ¬ (t.start ≤ i ∧ i < t.stop)) :
    ∃ b, (encode cs)[i - offset]? = some b ∧ Lexer.isSpacing b = true := by
  induction h with
  | finished offset => exact absurd hlow (Nat.not_le.2 hhigh)
  | @blank offset c cs scan hc hrest ih =>
    by_cases hi : i < offset + c.utf8Size
    · have hlt : i - offset < (String.utf8EncodeChar c).length := by
        rw [String.length_utf8EncodeChar]
        omega
      refine ⟨_, ?_, (Matches.spacing c _ (List.getElem_mem hlt)).trans hc⟩
      rw [Text.encode_cons, List.getElem?_append_left hlt, List.getElem?_eq_getElem hlt]
    · have hrest : offset + byteLength [c] ≤ i := by simp; omega
      have hbyte := getElem?_encode_append hrest cs
      rw [List.singleton_append] at hbyte
      rw [hbyte]
      simpa using ih (by omega) hhigh hout
  | @token offset c piece cs t scan hc hread hrest ih =>
    simp only [cons, List.forall_mem_cons] at hout
    by_cases hi : i < offset + byteLength (c :: piece)
    · exact absurd ⟨hlow, hi⟩ hout.1
    · rw [getElem?_encode_append (Nat.not_lt.1 hi) cs]
      exact ih (Nat.not_lt.1 hi) hhigh hout.2
  | fault hc hread => exact absurd hlow (Nat.not_le.2 hhigh)

/-- The tokens of a scan lie in the text without gaps: what is between them is blank, nothing cuts a
character in two, and names are what stands at their places. -/
structure Scan.Tiles (source : String) (scan : Scan) : Prop where
  nonempty : ∀ t ∈ scan.tokens, t.start < t.stop
  ordered : scan.tokens.Pairwise fun t u => t.stop ≤ u.start
  inside : ∀ t ∈ scan.tokens, t.stop ≤ scan.stop
  ending : scan.stop ≤ source.utf8ByteSize ∧
    (scan.fault = none → scan.stop = source.utf8ByteSize)
  blank : ∀ i < scan.stop, (∀ t ∈ scan.tokens, ¬ (t.start ≤ i ∧ i < t.stop)) →
    ∃ b, (Text.bytes source)[i]? = some b ∧ Lexer.isSpacing b = true
  boundary : ∀ t ∈ scan.tokens,
    String.Pos.Raw.IsValid source ⟨t.start⟩ ∧ String.Pos.Raw.IsValid source ⟨t.stop⟩
  stop_boundary : String.Pos.Raw.IsValid source ⟨scan.stop⟩
  name : ∀ t ∈ scan.tokens, ∀ (name : String) (call : Bool), t.token = .word name call →
    Text.bytes name = ((Text.bytes source).drop t.start).take (t.stop - t.start)

namespace Spanned.Placed

variable {source : String} {t : Spanned}

theorem isValid_start (h : t.Placed 0 source.toList) : String.Pos.Raw.IsValid source ⟨t.start⟩ := by
  obtain ⟨before, c, piece, after, hsource, hstart, -, -, -⟩ := h
  rw [hstart, Nat.zero_add]
  exact Text.isValid_of_append hsource

theorem isValid_stop (h : t.Placed 0 source.toList) : String.Pos.Raw.IsValid source ⟨t.stop⟩ := by
  obtain ⟨before, c, piece, after, hsource, hstart, hstop, -, -⟩ := h
  have hsplit : source.toList = (before ++ c :: piece) ++ after := by simp [hsource]
  rw [hstop, hstart, Nat.zero_add, ← Text.byteLength_append]
  exact Text.isValid_of_append hsplit

theorem bytes_name (h : t.Placed 0 source.toList) {name : String} {call : Bool}
    (hname : t.token = .word name call) :
    Text.bytes name = ((Text.bytes source).drop t.start).take (t.stop - t.start) := by
  obtain ⟨before, c, piece, after, hsource, hstart, hstop, -, hread⟩ := h
  have hchars : name = String.ofList (c :: piece) := by
    rw [hname] at hread
    simpa using Token.eq_of_read_word hread
  have hbytes : Text.bytes source = encode before ++ (encode (c :: piece) ++ encode after) := by
    rw [← Text.encode_toList, hsource]
    simp
  rw [hstop, Nat.add_sub_cancel_left, hstart, Nat.zero_add, hbytes, ← Text.length_encode before,
    List.drop_left, ← Text.length_encode (c :: piece), List.take_left, hchars, Text.bytes_ofList]

end Spanned.Placed

theorem Scan.Stops.isValid {source : String} {stop : Nat} {fault : Option SyntaxCause}
    (h : Stops 0 source.toList stop fault) : String.Pos.Raw.IsValid source ⟨stop⟩ := by
  cases h with
  | finished hstop =>
    rw [hstop, Nat.zero_add]
    exact Text.isValid_of_append (List.append_nil _).symm
  | fault before c after cause hsource hstop hc hread =>
    rw [hstop, Nat.zero_add]
    exact Text.isValid_of_append hsource

theorem Scan.tiles_ofString (source : String) : (ofString source).Tiles source := by
  have hcuts := cuts_ofString source
  have hstop := hcuts.stops
  exact {
    nonempty := fun t ht => (hcuts.span t ht).2.1
    ordered := hcuts.ordered
    inside := fun t ht => (hcuts.span t ht).2.2
    ending := by
      refine ⟨hstop.isValid.le_utf8ByteSize, fun hfault => ?_⟩
      rw [hfault] at hstop
      cases hstop with
      | finished hstop => rw [hstop, Nat.zero_add, Text.byteLength_toList]
    blank := fun i hi hout => by
      simpa [Text.encode_toList] using hcuts.blank_byte i (Nat.zero_le i) hi hout
    boundary := fun t ht => ⟨(hcuts.placed t ht).isValid_start, (hcuts.placed t ht).isValid_stop⟩
    stop_boundary := hstop.isValid
    name := fun t ht name call hname => (hcuts.placed t ht).bytes_name hname }

/-- Calls of the lexer, at most one for each byte and one more, go through the whole text or come to
an error. They give the tokens of the scan, and these lie in the text without gaps. -/
theorem Lexer.drain_lossless (source : String) :
    ∃ scan, (Lexer.ofString source).drain (source.utf8ByteSize + 1) = some scan ∧
      scan = Scan.ofString source ∧ scan.Tiles source := by
  refine ⟨Scan.ofString source, ?_, rfl, Scan.tiles_ofString source⟩
  rw [Lexer.ofString_eq]
  apply Lexer.drain_ofChars
  have hlength := (Scan.cuts_ofString source).length_tokens_le
  rw [Text.byteLength_toList] at hlength
  exact Nat.lt_succ_of_le hlength

end Reckoner

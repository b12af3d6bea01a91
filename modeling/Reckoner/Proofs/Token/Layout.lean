import Reckoner.Token.Scan

/-! Where the tokens of a text stand. A scan cuts the text into blanks and tokens from left to right,
so that what holds of every scan is an induction over the pieces that are cut off. -/
namespace Reckoner

open Text (byteLength)

theorem takeWhile_eq_self {α : Type} {p : α → Bool} {l : List α} (h : ∀ a ∈ l, p a = true) :
    l.takeWhile p = l := by
  have happend : (l ++ []).takeWhile p = l ++ [].takeWhile p := List.takeWhile_append_of_pos h
  simpa using happend

theorem drop_takeWhile {α : Type} (p : α → Bool) (l : List α) :
    l.drop (l.takeWhile p).length = l.dropWhile p := by
  have h : (l.takeWhile p ++ l.dropWhile p).drop (l.takeWhile p).length = l.dropWhile p :=
    List.drop_left
  rwa [List.takeWhile_append_dropWhile] at h

theorem DigitRun.range_of_isDigit {c : Char} (h : c.isDigit = true) :
    48 ≤ c.toNat ∧ c.toNat ≤ 57 := by
  simpa [Char.isDigit, UInt32.le_iff_toNat_le] using h

namespace Token

def mark? (c : Char) : Option Token :=
  if c = '(' then some .opening
  else if c = ')' then some .closing
  else if c = '+' then some (.operator .add)
  else if c = '-' then some (.operator .sub)
  else if c = '*' then some (.operator .mul)
  else if c = '/' then some (.operator .div)
  else none

inductive Kind (c : Char) (cs : List Char) : Prop
  | mark (t : Token) (hmark : mark? c = some t) (hread : read c cs = .ok (t, 0))
  | index (hc : c = '$') (hread : read c cs = readIndex cs)
  | number (hc : (c.isDigit || c = '.') = true)
    (hread : read c cs = (Literal.read (c :: cs)).map fun found => (.number found.1, found.2 - 1))
  | word (hc : isWordChar c = true) (hread : read c cs = .ok
      (.word (String.ofList (c :: cs.takeWhile isWordChar))
        ((cs.drop (cs.takeWhile isWordChar).length).head? = some '('),
        (cs.takeWhile isWordChar).length))
  | unexpected (hread : read c cs = .error (.unexpectedCharacter c))

theorem read_of_mark? {c : Char} {t : Token} (h : mark? c = some t) (cs : List Char) :
    read c cs = .ok (t, 0) := by
  have hmark (k : Char) (u : Token) (hk : read k cs = .ok (u, 0)) (hc : c = k) (hu : u = t) :
      read c cs = .ok (t, 0) := by rw [hc, hk, hu]
  unfold mark? at h
  split at h
  next hc => exact hmark '(' .opening rfl hc (Option.some.inj h)
  split at h
  next hc => exact hmark ')' .closing rfl hc (Option.some.inj h)
  split at h
  next hc => exact hmark '+' (.operator .add) rfl hc (Option.some.inj h)
  split at h
  next hc => exact hmark '-' (.operator .sub) rfl hc (Option.some.inj h)
  split at h
  next hc => exact hmark '*' (.operator .mul) rfl hc (Option.some.inj h)
  split at h
  next hc => exact hmark '/' (.operator .div) rfl hc (Option.some.inj h)
  contradiction

theorem ne_of_mark?_eq_none {c : Char} (h : mark? c = none) :
    c ≠ '(' ∧ c ≠ ')' ∧ c ≠ '+' ∧ c ≠ '-' ∧ c ≠ '*' ∧ c ≠ '/' := by
  refine ⟨?_, ?_, ?_, ?_, ?_, ?_⟩ <;>
    · rintro rfl
      contradiction

theorem read_of_mark?_eq_none {c : Char} (h : mark? c = none) (cs : List Char) :
    read c cs =
      if c = '$' then readIndex cs
      else if c.isDigit || c = '.' then
        (Literal.read (c :: cs)).map fun found => (.number found.1, found.2 - 1)
      else if isWordChar c then
        .ok (.word (String.ofList (c :: cs.takeWhile isWordChar))
          ((cs.drop (cs.takeWhile isWordChar).length).head? = some '('),
          (cs.takeWhile isWordChar).length)
      else .error (.unexpectedCharacter c) := by
  obtain ⟨hopening, hclosing, hadd, hsub, hmul, hdiv⟩ := ne_of_mark?_eq_none h
  simp only [read, if_neg hopening, if_neg hclosing, if_neg hadd, if_neg hsub, if_neg hmul,
    if_neg hdiv]
  cases Literal.read (c :: cs) <;> rfl

theorem kind (c : Char) (cs : List Char) : Kind c cs := by
  cases hmark : mark? c with
  | some t => exact .mark t hmark (read_of_mark? hmark cs)
  | none =>
    have hread := read_of_mark?_eq_none hmark cs
    split at hread
    next hc => exact .index hc hread
    split at hread
    next hc => exact .number hc hread
    split at hread
    next hc => exact .word hc hread
    exact .unexpected hread

end Token

theorem DigitRun.length_read_le (limit : Nat) (cs : List Char) :
    (read limit cs).length ≤ cs.length :=
  (List.takeWhile_sublist Char.isDigit).length_le

theorem Literal.length_read_le {cs : List Char} {l : Literal} {n : Nat}
    (h : read cs = .ok (l, n)) : n ≤ cs.length := by
  have hwhole := DigitRun.length_read_le DigitRun.wholeLimit cs
  unfold read at h
  dsimp only at h
  split at h
  next rest hrest =>
    have hfraction := DigitRun.length_read_le DigitRun.fractionLimit rest
    have hlength := congrArg List.length hrest
    simp only [List.length_drop, List.length_cons] at hlength
    split at h
    next => contradiction
    next =>
      simp only [Except.ok.injEq, Prod.mk.injEq] at h
      omega
  next =>
    simp only [Except.ok.injEq, Prod.mk.injEq] at h
    omega

namespace Token

variable {c : Char} {cs : List Char} {t : Token} {n : Nat}

theorem length_readIndex_le (h : readIndex cs = .ok (t, n)) : n ≤ cs.length := by
  have hrun := DigitRun.length_read_le DigitRun.wholeLimit cs
  unfold readIndex at h
  dsimp only at h
  split at h
  next => contradiction
  next =>
    simp only [Except.ok.injEq, Prod.mk.injEq] at h
    omega

theorem length_read_le (h : read c cs = .ok (t, n)) : n ≤ cs.length := by
  cases kind c cs with
  | mark t' hmark hread =>
    simp only [hread, Except.ok.injEq, Prod.mk.injEq] at h
    omega
  | index hc hread => exact length_readIndex_le (hread.symm.trans h)
  | number hc hread =>
    rw [hread] at h
    cases hliteral : Literal.read (c :: cs) with
    | error cause => simp [hliteral, Except.map] at h
    | ok found =>
      have hlength := Literal.length_read_le hliteral
      simp only [hliteral, Except.map, Except.ok.injEq, Prod.mk.injEq] at h
      simp only [List.length_cons] at hlength
      omega
  | word hc hread =>
    have hlength := (List.takeWhile_sublist isWordChar (l := cs)).length_le
    simp only [hread, Except.ok.injEq, Prod.mk.injEq] at h
    omega
  | unexpected hread => simp [hread] at h

theorem run_of_read_word {name : String} {call : Bool} (h : read c cs = .ok (.word name call, n)) :
    isWordChar c = true ∧ name = String.ofList (c :: cs.takeWhile isWordChar) ∧
      n = (cs.takeWhile isWordChar).length := by
  cases kind c cs with
  | mark t' hmark hread =>
    simp only [hread, Except.ok.injEq, Prod.mk.injEq] at h
    rw [h.1] at hmark
    unfold mark? at hmark
    grind
  | index hc hread =>
    rw [hread, readIndex] at h
    dsimp only at h
    split at h <;> simp at h
  | number hc hread =>
    rw [hread] at h
    cases hliteral : Literal.read (c :: cs) <;> simp [hliteral, Except.map] at h
  | word hc hread =>
    simp only [hread, Except.ok.injEq, Prod.mk.injEq, word.injEq] at h
    exact ⟨hc, h.1.1.symm, h.2.symm⟩
  | unexpected hread => simp [hread] at h

theorem eq_of_read_word {name : String} {call : Bool} (h : read c cs = .ok (.word name call, n)) :
    name = String.ofList (c :: cs.take n) := by
  obtain ⟨-, rfl, rfl⟩ := run_of_read_word h
  rw [← List.prefix_iff_eq_take.1 (List.takeWhile_prefix isWordChar)]

end Token

namespace Scan

theorem ofChars_skip (skip offset : Nat) (cs : List Char) :
    ofChars skip offset cs = ofChars 0 (offset + byteLength (cs.take skip)) (cs.drop skip) := by
  induction cs generalizing skip offset with
  | nil => simp [ofChars]
  | cons c cs ih =>
    cases skip with
    | zero => simp
    | succ skip => simp [ofChars, ih skip, Nat.add_assoc]

/-- How a text that starts at byte `offset` is cut: into blanks, tokens and the place where the scan
stops. -/
inductive Cuts : Nat → List Char → Scan → Prop
  | finished (offset : Nat) : Cuts offset [] ⟨[], offset, none⟩
  | blank {offset : Nat} {c : Char} {cs : List Char} {scan : Scan} (hc : Text.isSpacing c = true)
    (hrest : Cuts (offset + c.utf8Size) cs scan) : Cuts offset (c :: cs) scan
  | token {offset : Nat} {c : Char} {piece cs : List Char} {t : Token} {scan : Scan}
    (hc : Text.isSpacing c = false) (hread : Token.read c (piece ++ cs) = .ok (t, piece.length))
    (hrest : Cuts (offset + byteLength (c :: piece)) cs scan) :
    Cuts offset (c :: piece ++ cs) (scan.cons ⟨t, offset, offset + byteLength (c :: piece)⟩)
  | fault {offset : Nat} {c : Char} {cs : List Char} {cause : SyntaxCause}
    (hc : Text.isSpacing c = false) (hread : Token.read c cs = .error cause) :
    Cuts offset (c :: cs) ⟨[], offset, some cause⟩

theorem cuts_ofChars (offset : Nat) (cs : List Char) : Cuts offset cs (ofChars 0 offset cs) := by
  -- A token may take any number of characters, so the induction is on the length of the text.
  induction hlength : cs.length using Nat.strongRecOn generalizing offset cs with
  | ind length ih =>
    cases cs with
    | nil => exact .finished offset
    | cons c cs =>
      simp only [List.length_cons] at hlength
      rw [ofChars]
      cases hc : Text.isSpacing c with
      | true => exact .blank hc (ih cs.length (by omega) _ cs rfl)
      | false =>
        simp only [Bool.false_eq_true, if_false]
        cases hread : Token.read c cs with
        | error cause => exact .fault hc hread
        | ok found =>
          obtain ⟨t, n⟩ := found
          have hn := Token.length_read_le hread
          have hpiece : (cs.take n).length = n := by simp [hn]
          dsimp only
          rw [ofChars_skip, Nat.add_assoc]
          have hcut : Cuts offset (c :: cs.take n ++ cs.drop n) (.cons
              ⟨t, offset, offset + byteLength (c :: cs.take n)⟩
              (ofChars 0 (offset + byteLength (c :: cs.take n)) (cs.drop n))) :=
            .token hc (by simpa [hpiece] using hread)
              (ih (cs.drop n).length (by simp; omega) _ _ rfl)
          simpa using hcut

theorem cuts_ofString (s : String) : Cuts 0 s.toList (ofString s) := cuts_ofChars 0 s.toList

namespace Cuts

variable {offset : Nat} {cs : List Char} {scan : Scan}

theorem le_stop (h : Cuts offset cs scan) : offset ≤ scan.stop := by
  induction h with
  | finished offset => exact Nat.le_refl _
  | blank hc hrest ih => omega
  | token hc hread hrest ih => exact Nat.le_trans (Nat.le_add_right _ _) ih
  | fault hc hread => exact Nat.le_refl _

theorem span (h : Cuts offset cs scan) :
    ∀ t ∈ scan.tokens, offset ≤ t.start ∧ t.start < t.stop ∧ t.stop ≤ scan.stop := by
  induction h with
  | finished offset => simp
  | blank hc hrest ih =>
    intro t ht
    have := ih t ht
    omega
  | @token offset c piece cs t scan hc hread hrest ih =>
    have hpos := c.utf8Size_pos
    have hstop := hrest.le_stop
    simp only [Text.byteLength_cons] at hstop ih
    simp only [cons, Text.byteLength_cons, List.forall_mem_cons]
    refine ⟨by omega, fun u hu => ?_⟩
    have := ih u hu
    omega
  | fault hc hread => simp

theorem ordered (h : Cuts offset cs scan) :
    scan.tokens.Pairwise fun t u => t.stop ≤ u.start := by
  induction h with
  | finished offset => simp
  | blank hc hrest ih => exact ih
  | token hc hread hrest ih =>
    rw [cons, List.pairwise_cons]
    exact ⟨fun u hu => (hrest.span u hu).1, ih⟩
  | fault hc hread => simp

theorem length_tokens_le (h : Cuts offset cs scan) : scan.tokens.length ≤ byteLength cs := by
  induction h with
  | finished offset => simp
  | blank hc hrest ih =>
    simp only [Text.byteLength_cons]
    omega
  | @token offset c piece cs t scan hc hread hrest ih =>
    have hpos := c.utf8Size_pos
    simp only [cons, List.length_cons, List.cons_append, Text.byteLength_cons,
      Text.byteLength_append]
    omega
  | fault hc hread => simp

end Cuts

end Scan

/-- The token is what can be read from the character at its start, and takes the characters up to its
stop, in a text that starts at byte `offset`. -/
inductive Spanned.Placed (offset : Nat) (cs : List Char) (t : Spanned) : Prop
  | mk (before : List Char) (c : Char) (piece after : List Char)
    (hcs : cs = before ++ c :: (piece ++ after)) (hstart : t.start = offset + byteLength before)
    (hstop : t.stop = t.start + byteLength (c :: piece)) (hc : Text.isSpacing c = false)
    (hread : Token.read c (piece ++ after) = .ok (t.token, piece.length))

theorem Spanned.Placed.behind {offset : Nat} {cs : List Char} {t : Spanned} (first : List Char)
    (h : t.Placed (offset + byteLength first) cs) : t.Placed offset (first ++ cs) := by
  obtain ⟨before, c, piece, after, rfl, hstart, hstop, hc, hread⟩ := h
  refine ⟨first ++ before, c, piece, after, by simp, ?_, hstop, hc, hread⟩
  rw [hstart, Text.byteLength_append, Nat.add_assoc]

inductive Scan.Stops (offset : Nat) (cs : List Char) (stop : Nat) : Option SyntaxCause → Prop
  | finished (hstop : stop = offset + byteLength cs) : Stops offset cs stop none
  | fault (before : List Char) (c : Char) (after : List Char) (cause : SyntaxCause)
    (hcs : cs = before ++ c :: after) (hstop : stop = offset + byteLength before)
    (hc : Text.isSpacing c = false) (hread : Token.read c after = .error cause) :
    Stops offset cs stop (some cause)

theorem Scan.Stops.behind {offset stop : Nat} {cs : List Char} {fault : Option SyntaxCause}
    (first : List Char) (h : Stops (offset + byteLength first) cs stop fault) :
    Stops offset (first ++ cs) stop fault := by
  cases h with
  | finished hstop =>
    apply Stops.finished
    rw [hstop, Text.byteLength_append, Nat.add_assoc]
  | fault before c after cause hcs hstop hc hread =>
    refine .fault (first ++ before) c after cause (by simp [hcs]) ?_ hc hread
    rw [hstop, Text.byteLength_append, Nat.add_assoc]

namespace Scan.Cuts

variable {offset : Nat} {cs : List Char} {scan : Scan}

theorem placed (h : Cuts offset cs scan) : ∀ t ∈ scan.tokens, t.Placed offset cs := by
  induction h with
  | finished offset => simp
  | @blank offset c cs scan hc hrest ih =>
    intro t ht
    apply Spanned.Placed.behind [c]
    simpa using ih t ht
  | @token offset c piece cs t scan hc hread hrest ih =>
    simp only [cons, List.forall_mem_cons]
    refine ⟨⟨[], c, piece, cs, rfl, rfl, rfl, hc, hread⟩, fun u hu => ?_⟩
    exact Spanned.Placed.behind (c :: piece) (ih u hu)
  | fault hc hread => simp

theorem stops (h : Cuts offset cs scan) : Stops offset cs scan.stop scan.fault := by
  induction h with
  | finished offset => exact .finished rfl
  | @blank offset c cs scan hc hrest ih =>
    apply Stops.behind [c]
    simpa using ih
  | @token offset c piece cs t scan hc hread hrest ih => exact Stops.behind (c :: piece) ih
  | fault hc hread => exact .fault [] _ _ _ rfl rfl hc hread

end Scan.Cuts

end Reckoner

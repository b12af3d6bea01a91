import Reckoner.Proofs.Token.Layout

/-! Texts that are put together. A token ends where it ended before as long as nothing that could be
part of it follows, so that a scan takes its pieces one after the other. -/
namespace Reckoner

section Classes

variable {p : Char → Bool} {cs rest : List Char}

theorem takeWhile_append_of_head (h : ∀ d, rest.head? = some d → p d = false) :
    (cs ++ rest).takeWhile p = cs.takeWhile p := by
  have hrest : rest.takeWhile p = [] := by
    cases rest with
    | nil => rfl
    | cons d rest => simp [h d rfl]
  rw [List.takeWhile_append]
  split
  next hall =>
    rw [hrest, List.append_nil]
    exact ((List.takeWhile_prefix p).eq_of_length hall).symm
  next => rfl

theorem drop_takeWhile_append (h : ∀ d, rest.head? = some d → p d = false) :
    (cs ++ rest).drop ((cs ++ rest).takeWhile p).length =
      cs.drop (cs.takeWhile p).length ++ rest := by
  rw [takeWhile_append_of_head h, List.drop_append_of_le_length]
  exact (List.takeWhile_sublist p).length_le

end Classes

/-- Nothing at the front of the text can be part of a token that ends there, or make a call of a
name. -/
def Token.Separates (rest : List Char) : Prop :=
  ∀ d, rest.head? = some d → isWordChar d = false ∧ d.isDigit = false ∧ d ≠ '.' ∧ d ≠ '('

theorem Token.separates_nil : Separates [] := by
  intro d hd
  contradiction

theorem Token.separates_cons {d : Char} (rest : List Char)
    (h : isWordChar d = false ∧ d.isDigit = false ∧ d ≠ '.' ∧ d ≠ '(') : Separates (d :: rest) := by
  intro e he
  cases he
  exact h

variable {rest : List Char}

theorem DigitRun.read_append (h : ∀ d, rest.head? = some d → d.isDigit = false) (limit : Nat)
    (cs : List Char) : read limit (cs ++ rest) = read limit cs := by
  simp only [read, takeWhile_append_of_head h]

theorem Literal.read_append (h : Token.Separates rest) (cs : List Char) :
    read (cs ++ rest) = read cs := by
  have hdigit : ∀ d, rest.head? = some d → d.isDigit = false := fun d hd => (h d hd).2.1
  have hdrop : (cs ++ rest).drop (DigitRun.read DigitRun.wholeLimit cs).length =
      cs.drop (DigitRun.read DigitRun.wholeLimit cs).length ++ rest :=
    List.drop_append_of_le_length (DigitRun.length_read_le _ _)
  simp only [read, DigitRun.read_append hdigit, hdrop]
  cases cs.drop (DigitRun.read DigitRun.wholeLimit cs).length with
  | nil =>
    -- A point behind the digits would go on with the number.
    cases rest with
    | nil => rfl
    | cons d rest =>
      have hd : d ≠ '.' := (h d rfl).2.2.1
      simp [hd]
  | cons d more =>
    by_cases hd : d = '.'
    · subst hd
      simp only [List.cons_append, DigitRun.read_append hdigit]
    · simp [hd]

namespace Token

theorem readIndex_append (h : Separates rest) (cs : List Char) :
    readIndex (cs ++ rest) = readIndex cs := by
  have hdigit : ∀ d, rest.head? = some d → d.isDigit = false := fun d hd => (h d hd).2.1
  simp only [readIndex, DigitRun.read_append hdigit]

theorem read_append (h : Separates rest) (c : Char) (cs : List Char) :
    read c (cs ++ rest) = read c cs := by
  cases hmark : mark? c with
  | some t => rw [read_of_mark? hmark, read_of_mark? hmark]
  | none =>
    have hword : ∀ d, rest.head? = some d → isWordChar d = false := fun d hd => (h d hd).1
    have hcall : (cs.drop (cs.takeWhile isWordChar).length ++ rest).head? = some '(' ↔
        (cs.drop (cs.takeWhile isWordChar).length).head? = some '(' := by
      cases cs.drop (cs.takeWhile isWordChar).length with
      | nil =>
        simp only [List.nil_append, List.head?_nil, reduceCtorEq, iff_false]
        exact fun hopening => (h '(' hopening).2.2.2 rfl
      | cons d more => rfl
    rw [read_of_mark?_eq_none hmark, read_of_mark?_eq_none hmark, readIndex_append h,
      ← List.cons_append, Literal.read_append h, drop_takeWhile_append hword,
      takeWhile_append_of_head hword]
    simp only [hcall]

/-! What is written as a name or in digits can be read as that. -/

theorem isWordChar_of_isDigit {c : Char} (h : c.isDigit = true) : isWordChar c = false := by
  have hrange := DigitRun.range_of_isDigit h
  have hall : ∀ n < 58, 48 ≤ n → isWordChar (Char.ofNat n) = false := by decide
  simpa using hall c.toNat (by omega) hrange.1

theorem read_of_isWordChar {c : Char} (hc : isWordChar c = true) (cs : List Char) :
    read c cs = .ok (.word (String.ofList (c :: cs.takeWhile isWordChar))
      ((cs.drop (cs.takeWhile isWordChar).length).head? = some '('),
      (cs.takeWhile isWordChar).length) := by
  have hne (k : Char) (hk : isWordChar k = false) : c ≠ k := by
    rintro rfl
    simp [hc] at hk
  have hdigit : c.isDigit = false := by
    cases h : c.isDigit with
    | false => rfl
    | true => simp [isWordChar_of_isDigit h] at hc
  have hmark : mark? c = none := by
    simp only [mark?, if_neg (hne '(' rfl), if_neg (hne ')' rfl), if_neg (hne '+' rfl),
      if_neg (hne '-' rfl), if_neg (hne '*' rfl), if_neg (hne '/' rfl)]
  rw [read_of_mark?_eq_none hmark, if_neg (hne '$' rfl), if_neg (by simp [hdigit, hne '.' rfl]),
    if_pos hc]

theorem read_word {c : Char} {piece : List Char} (hc : isWordChar c = true)
    (hpiece : ∀ d ∈ piece, isWordChar d = true)
    (hrest : ∀ d, rest.head? = some d → isWordChar d = false) :
    read c (piece ++ rest) =
      .ok (.word (String.ofList (c :: piece)) (rest.head? = some '('), piece.length) := by
  have htake : (piece ++ rest).takeWhile isWordChar = piece := by
    rw [takeWhile_append_of_head hrest]
    exact takeWhile_eq_self hpiece
  rw [read_of_isWordChar hc, htake, List.drop_left]

end Token

theorem DigitRun.foldl_digit (ds : List Char) (n : Nat) :
    ds.foldl (fun v c => v * 10 + digit c) (UInt64.ofNat n) =
      UInt64.ofNat (Nat.ofDigitChars 10 ds n) := by
  induction ds generalizing n with
  | nil => rfl
  | cons c ds ih =>
    rw [List.foldl_cons, Nat.ofDigitChars_cons, ← ih, UInt64.ofNat_add, UInt64.ofNat_mul,
      UInt64.mul_comm]
    rfl

theorem DigitRun.read_toDigits {limit n : Nat} (h : (Nat.toDigits 10 n).length ≤ limit) :
    read limit (Nat.toDigits 10 n) =
      ⟨UInt64.ofNat n, (Nat.toDigits 10 n).length, (Nat.toDigits 10 n).length⟩ := by
  have hrun : (Nat.toDigits 10 n).takeWhile Char.isDigit = Nat.toDigits 10 n :=
    takeWhile_eq_self fun c hc =>
      Nat.isDigit_of_mem_toDigits (by decide) (by decide) hc
  have hvalue := foldl_digit (Nat.toDigits 10 n) 0
  rw [Nat.ofDigitChars_ten_toDigits] at hvalue
  simp only [read, hrun, List.take_of_length_le h]
  rw [← hvalue]
  rfl

theorem Token.readIndex_toDigits (i : UInt16) :
    readIndex (Nat.toDigits 10 i.toNat) =
      .ok (.index i.toUInt64, (Nat.toDigits 10 i.toNat).length) := by
  have hlength : (Nat.toDigits 10 i.toNat).length ≤ 5 :=
    (Nat.length_toDigits_le_iff (by decide) (by decide)).2
      (Nat.lt_trans i.toNat_lt (by decide))
  have hpos : (Nat.toDigits 10 i.toNat).length ≠ 0 := by simp [Nat.toDigits_ne_nil]
  have hrun := DigitRun.read_toDigits (Nat.le_trans hlength
    (by decide : 5 ≤ DigitRun.wholeLimit))
  simp only [readIndex, hrun, if_neg hpos]
  rw [if_pos (Nat.lt_of_le_of_lt hlength (by decide))]
  simp

namespace Scan

/-- A scan of the first text takes off the tokens and comes to the second. What follows is there from
the start, so that pieces of a text can be put together. -/
inductive Takes : List Char → List Token → List Char → Prop
  | refl (cs : List Char) : Takes cs [] cs
  | blank {c : Char} {cs rest : List Char} {ts : List Token} (hc : Text.isSpacing c = true)
    (h : Takes cs ts rest) : Takes (c :: cs) ts rest
  | token {c : Char} {piece cs rest : List Char} {t : Token} {ts : List Token}
    (hc : Text.isSpacing c = false) (hread : Token.read c (piece ++ cs) = .ok (t, piece.length))
    (h : Takes cs ts rest) : Takes (c :: piece ++ cs) (t :: ts) rest

namespace Takes

variable {cs between : List Char} {ts us : List Token}

theorem trans (h : Takes cs ts between) (h' : Takes between us rest) :
    Takes cs (ts ++ us) rest := by
  induction h with
  | refl => exact h'
  | blank hc _ ih => exact .blank hc (ih h')
  | token hc hread _ ih => exact .token hc hread (ih h')

theorem of_cuts {offset : Nat} {scan : Scan} (h : Cuts offset cs scan) (hfault : scan.fault = none) :
    Takes cs (scan.tokens.map Spanned.token) [] := by
  induction h with
  | finished offset => exact .refl []
  | blank hc _ ih => exact .blank hc (ih hfault)
  | token hc hread _ ih => exact .token hc hread (ih hfault)
  | fault hc hread => contradiction

theorem ofChars (h : Takes cs ts []) (offset : Nat) :
    (Scan.ofChars 0 offset cs).fault = none ∧
      (Scan.ofChars 0 offset cs).tokens.map Spanned.token = ts := by
  generalize hend : ([] : List Char) = last at h
  induction h generalizing offset with
  | refl =>
    subst hend
    simp [Scan.ofChars]
  | blank hc _ ih =>
    rw [Scan.ofChars, if_pos hc]
    exact ih (offset + _) hend
  | @token c piece cs last t ts hc hread _ ih =>
    rw [List.cons_append, Scan.ofChars, if_neg (by simp [hc]), hread]
    dsimp only
    rw [ofChars_skip, List.drop_left]
    simpa [Scan.cons] using ih _ hend

theorem append (hrest : Token.Separates rest) (h : Takes cs ts []) : Takes (cs ++ rest) ts rest := by
  generalize hend : ([] : List Char) = last at h
  induction h with
  | refl => 
    subst hend
    exact .refl rest
  | blank hc _ ih => exact .blank hc (ih hend)
  | @token c piece cs last t ts hc hread _ ih =>
    rw [List.append_assoc]
    refine .token hc ?_ (ih hend)
    rw [← List.append_assoc, Token.read_append hrest, hread]

end Takes

end Scan

end Reckoner

import Reckoner.Expr.Parse
import Reckoner.Proofs.Number.Whole
import Reckoner.Proofs.Text.Words
import Reckoner.Proofs.Token.Joining

/-! Blanks between words carry no meaning. What a scan finds in a text is what it finds in the words of
the text, one after the other, and reading looks at places only to report them. -/
namespace Reckoner

/-- What a scan finds, without the places: the tokens, and the fault behind them if there is one. -/
structure Outline where
  tokens : List Token
  fault : Option SyntaxCause
  deriving DecidableEq, Repr

namespace Outline

def empty : Outline := ⟨[], none⟩

def append (o p : Outline) : Outline :=
  match o.fault with
  | some _ => o
  | none => ⟨o.tokens ++ p.tokens, p.fault⟩

def cons (t : Token) (o : Outline) : Outline := ⟨t :: o.tokens, o.fault⟩

theorem cons_append (t : Token) (o p : Outline) : (o.cons t).append p = (o.append p).cons t := by
  obtain ⟨ts, fault⟩ := o
  cases fault <;> rfl

end Outline

namespace Scan

def outline (s : Scan) : Outline := ⟨s.tokens.map Spanned.token, s.fault⟩

theorem outline_cons (t : Spanned) (s : Scan) : (s.cons t).outline = s.outline.cons t.token := rfl

theorem outline_ofChars (skip offset : Nat) (cs : List Char) :
    (ofChars skip offset cs).outline = (ofChars skip 0 cs).outline := by
  induction cs generalizing skip offset with
  | nil => cases skip <;> rfl
  | cons c cs ih =>
    cases skip with
    | succ skip =>
      rw [ofChars, ofChars, ih skip (offset + _), ih skip (0 + _)]
    | zero =>
      rw [ofChars, ofChars]
      split
      next => rw [ih 0 (offset + _), ih 0 (0 + _)]
      next =>
        cases Token.read c cs with
        | error cause => rfl
        | ok found =>
          dsimp only
          rw [outline_cons, outline_cons, ih _ (offset + _), ih _ (0 + _)]

theorem outline_gap_append {gap : List Char} (hgap : ∀ c ∈ gap, Text.isSpacing c = true)
    (cs : List Char) : (ofChars 0 0 (gap ++ cs)).outline = (ofChars 0 0 cs).outline := by
  induction gap with
  | nil => rfl
  | cons c gap ih =>
    rw [List.forall_mem_cons] at hgap
    rw [List.cons_append, ofChars, if_pos hgap.1, outline_ofChars, ih hgap.2]

end Scan

theorem Token.separates_of_isSpacing {rest : List Char}
    (h : ∀ c, rest.head? = some c → Text.isSpacing c = true) : Separates rest := by
  intro d hd
  have hspacing := h d hd
  simp only [Text.isSpacing, Bool.or_eq_true, decide_eq_true_eq] at hspacing
  rcases hspacing with (((rfl | rfl) | rfl) | rfl) | rfl <;> decide

namespace Scan

/-- No token goes on over the end of a word, so that the rest of the text is scanned on its own. -/
theorem outline_word_append {word rest : List Char} (hword : ∀ c ∈ word, Text.isSpacing c = false)
    (hend : ∀ c, rest.head? = some c → Text.isSpacing c = true) {skip : Nat}
    (hskip : skip ≤ word.length) :
    (ofChars skip 0 (word ++ rest)).outline =
      (ofChars skip 0 word).outline.append (ofChars 0 0 rest).outline := by
  induction word generalizing skip with
  | nil =>
    obtain rfl : skip = 0 := Nat.le_zero.1 hskip
    rfl
  | cons c word ih =>
    rw [List.forall_mem_cons] at hword
    rw [List.cons_append]
    cases skip with
    | succ skip =>
      rw [ofChars, ofChars, outline_ofChars, outline_ofChars skip (0 + _) word]
      exact ih hword.2 (Nat.le_of_succ_le_succ hskip)
    | zero =>
      rw [ofChars, ofChars, if_neg (by simp [hword.1]), if_neg (by simp [hword.1]),
        Token.read_append (Token.separates_of_isSpacing hend)]
      cases hread : Token.read c word with
      | error cause => rfl
      | ok found =>
        obtain ⟨t, n⟩ := found
        dsimp only
        rw [outline_cons, outline_cons, Outline.cons_append, outline_ofChars,
          outline_ofChars n (0 + _) word, ih hword.2 (Token.length_read_le hread)]

theorem outline_of_laid {ws : List (List Char)} {cs : List Char} (h : Text.Laid ws cs) :
    (ofChars 0 0 cs).outline =
      ws.foldr (fun word later => (ofChars 0 0 word).outline.append later) .empty := by
  induction h with
  | @blank gap hgap =>
    have hgap := outline_gap_append hgap []
    rwa [List.append_nil] at hgap
  | word hgap hne hword hend hrest ih =>
    rw [outline_gap_append hgap, outline_word_append hword hend (Nat.zero_le _), ih,
      List.foldr_cons]

theorem outline_of_respaced {s t : String} (h : Text.Respaced s t) :
    (ofString t).outline = (ofString s).outline := by
  obtain ⟨ws, hs, ht⟩ := h
  rw [ofString, ofString, outline_of_laid hs, outline_of_laid ht]

end Scan

def Error.unplaced : Error → Error
  | .syntaxError _ cause => .syntaxError 0 cause
  | e => e

theorem cases_of_mapError_eq {ε ε' α : Type} {f : ε → ε'} {x y : Except ε α}
    (h : x.mapError f = y.mapError f) :
    (∃ e e', x = .error e ∧ y = .error e' ∧ f e = f e') ∨ ∃ a, x = .ok a ∧ y = .ok a := by
  cases x with
  | error e =>
    cases y with
    | error e' => exact .inl ⟨e, e', rfl, rfl, Except.error.inj h⟩
    | ok a => contradiction
  | ok a =>
    cases y with
    | error e' => contradiction
    | ok b => exact .inr ⟨a, rfl, congrArg Except.ok (Except.ok.inj h).symm⟩

namespace Reading

variable {A : Arithmetic} {s : Scope}

theorem step_unplaced (r : Reading) (offset offset' : Nat) (t : Token) :
    (r.step A s offset t).mapError Error.unplaced =
      (r.step A s offset' t).mapError Error.unplaced := by
  unfold step
  split
  next =>
    cases t with
    | operator op =>
      rw [readOperand, readOperand]
      split <;> rfl
    | number l => rfl
    | index n => rfl
    | word name call => rfl
    | opening => rfl
    | closing => rfl
  next negative => cases t <;> rfl
  next f => cases t <;> rfl
  next e =>
    unfold readContinuation
    split
    next => rfl
    next => split <;> rfl
    next => split <;> rfl

theorem run_unplaced {ts us : List Spanned} (h : ts.map Spanned.token = us.map Spanned.token)
    (r : Reading) :
    (r.run A s ts).mapError Error.unplaced = (r.run A s us).mapError Error.unplaced := by
  induction ts generalizing us r with
  | nil =>
    obtain rfl : us = [] := List.map_eq_nil_iff.1 h.symm
    rfl
  | cons t ts ih =>
    cases us with
    | nil => contradiction
    | cons u us =>
      simp only [List.map_cons, List.cons.injEq] at h
      obtain ⟨htoken, hrest⟩ := h
      have hstep := r.step_unplaced (A := A) (s := s) t.start u.start t.token
      rw [run, run, ← htoken]
      obtain ⟨e, e', hfirst, hsecond, he⟩ | ⟨next, hfirst, hsecond⟩ := cases_of_mapError_eq hstep
      · rw [hfirst, hsecond]
        exact congrArg Except.error he
      · rw [hfirst, hsecond]
        exact ih hrest next

theorem finish_unplaced (r : Reading) (offset offset' : Nat) :
    (r.finish offset).mapError Error.unplaced = (r.finish offset').mapError Error.unplaced := by
  unfold finish
  split
  next => rfl
  next => rfl
  next => rfl
  next => split <;> rfl

end Reading

theorem Expr.parse_unplaced (A : Arithmetic) (scope : Scope) {s t : String}
    (h : (Scan.ofString t).outline = (Scan.ofString s).outline) :
    (parse A scope t).mapError Error.unplaced = (parse A scope s).mapError Error.unplaced := by
  have htokens : (Scan.ofString t).tokens.map Spanned.token =
      (Scan.ofString s).tokens.map Spanned.token := congrArg Outline.tokens h
  have hfault : (Scan.ofString t).fault = (Scan.ofString s).fault := congrArg Outline.fault h
  have hrun := Reading.run_unplaced (A := A) (s := scope) htokens .start
  unfold parse
  dsimp only
  rw [hfault]
  obtain ⟨e, e', ht, hs, he⟩ | ⟨r, ht, hs⟩ := cases_of_mapError_eq hrun
  · rw [ht, hs]
    exact congrArg Except.error he
  · rw [ht, hs]
    cases (Scan.ofString s).fault with
    | some cause => rfl
    | none => exact r.finish_unplaced _ _

/-- Blanks may be exchanged for other blanks, and stand at the ends or not: the text has the same
tokens, up to the same fault if there is one, and is read as the same tree, or refused with the same
error but for the place of a syntax error. -/
theorem Expr.parse_respaced (A : Arithmetic) (scope : Scope) (s t : String)
    (h : Text.Respaced s t) :
    (Scan.ofString t).tokens.map Spanned.token = (Scan.ofString s).tokens.map Spanned.token ∧
      (Scan.ofString t).fault = (Scan.ofString s).fault ∧
      (parse A scope t).mapError Error.unplaced = (parse A scope s).mapError Error.unplaced := by
  have houtline := Scan.outline_of_respaced h
  exact ⟨congrArg Outline.tokens houtline, congrArg Outline.fault houtline,
    parse_unplaced A scope houtline⟩

theorem Expr.parse_respaced_trailing :
    Text.Respaced "sin(x) + 2. ( 1" "\tsin(x)\r\n+  2.\n( 1 " ∧
      parse .whole ⟨["x"], 1⟩ "sin(x) + 2. ( 1" = .error (.syntaxError 12 .trailingInput) ∧
      (parse .whole ⟨["x"], 1⟩ "\tsin(x)\r\n+  2.\n( 1 ").mapError Error.unplaced =
        .error (.syntaxError 0 .trailingInput) := by
  have hrespaced : Text.Respaced "sin(x) + 2. ( 1" "\tsin(x)\r\n+  2.\n( 1 " := by decide
  have hparse : parse .whole ⟨["x"], 1⟩ "sin(x) + 2. ( 1" =
      .error (.syntaxError 12 .trailingInput) := rfl
  obtain ⟨-, -, hsame⟩ := parse_respaced .whole ⟨["x"], 1⟩ _ _ hrespaced
  rw [hparse] at hsame
  exact ⟨hrespaced, hparse, hsame⟩

end Reckoner

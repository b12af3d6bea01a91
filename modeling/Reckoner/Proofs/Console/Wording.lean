import Reckoner.Decimal.Layout
import Reckoner.Proofs.Expr.Diagnosis
import Reckoner.Proofs.Text.Clipping

/-! Texts that stay in their line: results, and what is said about a formula that cannot be read. -/
namespace Reckoner

namespace Text

def Unbroken (s : String) : Prop := '\n' ∉ s.toList

instance (s : String) : Decidable (Unbroken s) := inferInstanceAs (Decidable (_ ∉ _))

theorem Unbroken.append {s t : String} (hs : Unbroken s) (ht : Unbroken t) : Unbroken (s ++ t) := by
  simp only [Unbroken] at hs ht
  simp [Unbroken, hs, ht]

theorem not_mem_toDigits {b : Nat} (hb : 1 < b) (n : Nat) : '\n' ∉ Nat.toDigits b n := by
  have hdigit (d : Nat) : '\n' ≠ d.digitChar := (Nat.digitChar_ne '\n' (by decide)).symm
  induction n using Nat.strongRecOn with
  | ind n ih =>
    rw [Nat.toDigits_eq_if hb]
    split
    next => simp [hdigit]
    next hn =>
      have hsmaller : n / b < n := Nat.div_lt_self (by omega) hb
      simp [ih (n / b) hsmaller, hdigit]

theorem unbroken_toString (n : Nat) : Unbroken (toString n) := by
  rw [Unbroken, Nat.toString_eq_ofList_toDigits, String.toList_ofList]
  exact not_mem_toDigits (by decide) n

theorem unbroken_hex (width n : Nat) : Unbroken (hex width n) := by
  simp [Unbroken, hex, not_mem_toDigits]

theorem unbroken_visible (c : Char) : Unbroken (visible c) := by
  unfold visible
  split
  next => decide
  split
  next => decide
  split
  next => decide
  next hfeed =>
    split
    next => decide
    split
    next => decide
    split
    next => decide
    split
    next => simpa [Unbroken] using Ne.symm hfeed
    next => exact .append (by decide) (unbroken_hex 2 c.toNat)

theorem unbroken_pointed {digits : List Char} (h : '\n' ∉ digits) (n : Nat) :
    Unbroken (String.ofList (digits.take n ++ '.' :: digits.drop n)) := by
  have htake : '\n' ∉ digits.take n := fun hmem => h (List.mem_of_mem_take hmem)
  have hdrop : '\n' ∉ digits.drop n := fun hmem => h (List.mem_of_mem_drop hmem)
  simp [Unbroken, htake, hdrop]

end Text

open Text (Unbroken)

theorem SyntaxCause.unbroken_text {cause : SyntaxCause} (h : cause.isFixed = true) :
    Unbroken cause.text := by
  cases cause with
  | unexpectedCharacter c => exact .append (.append (by decide) (Text.unbroken_visible c)) (by decide)
  | note text => contradiction
  | _ => decide

theorem Token.unbroken_of_read_word {c : Char} {cs : List Char} {name : String} {call : Bool}
    {n : Nat} (h : read c cs = .ok (.word name call, n)) : Unbroken name := by
  obtain ⟨hc, rfl, -⟩ := run_of_read_word h
  have hfeed : isWordChar '\n' = false := by decide
  intro hmem
  rw [String.toList_ofList, List.mem_cons] at hmem
  rcases hmem with rfl | hmem
  · simp [hfeed] at hc
  · have hrun := List.all_eq_true.1 List.all_takeWhile '\n' hmem
    simp [hfeed] at hrun

namespace Error

variable {e : Error}

theorem unbroken_syntaxError (offset : Nat) {cause : SyntaxCause} (h : cause.isFixed = true) :
    Unbroken (syntaxError offset cause).text := by
  have hfirst := Unbroken.append (s := "Syntax error at offset ") (by decide)
    (Text.unbroken_toString offset)
  exact .append (.append hfirst (by decide)) (SyntaxCause.unbroken_text h)

theorem unbroken_note {reason : String} (h : Unbroken reason) :
    Unbroken (internal (.note reason)).text :=
  .append (by decide) h

theorem Blames.unbroken_text {s : Scope} {offset : Nat} {t : Token} (h : e.Blames s offset t)
    (hword : ∀ name call, t = .word name call → Unbroken name) : Unbroken e.text := by
  cases h with
  | place hcause => exact unbroken_syntaxError offset hcause
  | @index n ht hn =>
    have hfirst := Unbroken.append (s := "Arg ") (by decide) (Text.unbroken_toString n.toNat)
    exact .append (.append hfirst (by decide)) (Text.unbroken_toString s.count)
  | name ht hcall hname => exact .append (by decide) (hword _ _ ht)

theorem unbroken_message (h : Unbroken e.text) : Unbroken e.message := by
  rw [Unbroken, message, Text.toList_clip]
  exact fun hmem => h ((Text.cut_isPrefix _ _).subset hmem)

end Error

theorem Expr.unbroken_of_parse {A : Arithmetic} {s : Scope} {source : String} {e : Error}
    (h : Expr.parse A s source = .error e) : Unbroken e.message := by
  apply Error.unbroken_message
  obtain ⟨t, ht, hblames⟩ | ⟨cause, hcause, rfl⟩ := Expr.error_of_parse h
  · apply hblames.unbroken_text
    intro name call htoken
    obtain ⟨before, c, piece, after, -, -, -, -, hread⟩ :=
      (Scan.cuts_ofString source).placed t ht
    rw [htoken] at hread
    exact Token.unbroken_of_read_word hread
  · exact Error.unbroken_syntaxError _ hcause

theorem Single.unbroken_fixed (places : Nat) (x : Single) : Unbroken (x.fixed places) := by
  unfold fixed
  split
  next => decide
  next =>
    apply Unbroken.append
    · split <;> decide
    · split
      next => decide
      next =>
        apply Text.unbroken_pointed
        simp [Text.not_mem_toDigits]

end Reckoner

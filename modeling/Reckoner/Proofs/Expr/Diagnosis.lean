import Reckoner.Expr.Parse
import Reckoner.Proofs.Token.Layout

/-! What reading complains about is always the formula: its syntax, or an argument that it names. -/
namespace Reckoner

def SyntaxCause.isFixed : SyntaxCause → Bool
  | note _ => false
  | _ => true

/-- `Blames s offset t e`: the error says that the token `t` at byte `offset` is wrong there, or that
the argument cannot be found that it names. -/
inductive Error.Blames (s : Scope) (offset : Nat) (t : Token) : Error → Prop
  | place {cause : SyntaxCause} (hcause : cause.isFixed = true) :
    Blames s offset t (.syntaxError offset cause)
  | index {n : UInt64} (ht : t = .index n) (hn : s.resolveIndex n = .error (.argNumber n s.count)) :
    Blames s offset t (.argNumber n s.count)
  | name {name : String} {call : Bool} (ht : t = .word name call)
    (hcall : (if call then Intrinsic.ofName? name else none) = none)
    (hname : s.resolveName name = .error (.argName name)) : Blames s offset t (.argName name)

theorem Error.Blames.isRecoverable {s : Scope} {offset : Nat} {t : Token} {e : Error}
    (h : e.Blames s offset t) : e.isRecoverable = true := by
  cases h <;> rfl

theorem Scope.error_of_resolveIndex (s : Scope) {n : UInt64} {e : Error}
    (h : s.resolveIndex n = .error e) : e = .argNumber n s.count := by
  unfold resolveIndex at h
  split at h
  next => contradiction
  next => exact (Except.error.inj h).symm

theorem Scope.error_of_resolveName (s : Scope) {name : String} {e : Error}
    (h : s.resolveName name = .error e) : e = .argName name := by
  unfold resolveName at h
  split at h
  next =>
    split at h
    next => contradiction
    next => exact (Except.error.inj h).symm
  next => exact (Except.error.inj h).symm

namespace Reading

variable {A : Arithmetic} {s : Scope} {r : Reading} {offset : Nat} {t : Token} {e : Error}

theorem blames_of_place {α : Type} {cause : SyntaxCause} (hcause : cause.isFixed = true)
    (h : (.error (.syntaxError offset cause) : Except Error α) = .error e) :
    e.Blames s offset t :=
  Except.error.inj h ▸ .place hcause

theorem blames_of_readOperand (h : r.readOperand A s offset t = .error e) :
    e.Blames s offset t := by
  cases t with
  | number l => contradiction
  | operator op =>
    rw [readOperand] at h
    split at h
    next => contradiction
    next => exact blames_of_place rfl h
  | index n =>
    rw [readOperand] at h
    split at h
    next => contradiction
    next e' he =>
      cases h
      obtain rfl := s.error_of_resolveIndex he
      exact .index rfl he
  | word name call =>
    rw [readOperand] at h
    split at h
    next => contradiction
    next hcall =>
      split at h
      next => contradiction
      next e' he =>
        cases h
        obtain rfl := s.error_of_resolveName he
        exact .name rfl hcall he
  | opening => contradiction
  | closing => exact blames_of_place rfl h

theorem blames_of_readContinuation {operand : Expr}
    (h : r.readContinuation operand offset t = .error e) : e.Blames s offset t := by
  unfold readContinuation at h
  split at h
  next => contradiction
  next =>
    split at h
    next => exact blames_of_place rfl h
    next => contradiction
  next =>
    split at h
    next => exact blames_of_place rfl h
    next => exact blames_of_place rfl h

theorem blames_of_step (h : r.step A s offset t = .error e) : e.Blames s offset t := by
  unfold step at h
  split at h
  next => exact blames_of_readOperand h
  next =>
    unfold readMagnitude at h
    split at h
    next => contradiction
    next => exact blames_of_place rfl h
  next =>
    unfold readOpening at h
    split at h
    next => contradiction
    next => exact blames_of_place rfl h
  next => exact blames_of_readContinuation h

theorem run_eq_error {tokens : List Spanned} (h : r.run A s tokens = .error e) :
    ∃ before t after last, tokens = before ++ t :: after ∧ r.run A s before = .ok last ∧
      last.step A s t.start t.token = .error e := by
  induction tokens generalizing r with
  | nil => contradiction
  | cons t tokens ih =>
    rw [run] at h
    split at h
    next between hstep =>
      obtain ⟨before, u, after, last, rfl, hrun, hlast⟩ := ih h
      refine ⟨t :: before, u, after, last, rfl, ?_, hlast⟩
      rw [run, hstep]
      exact hrun
    next e' hstep =>
      cases h
      exact ⟨[], t, tokens, r, rfl, rfl, hstep⟩

theorem cause_of_finish (h : r.finish offset = .error e) :
    ∃ cause, cause.isFixed = true ∧ e = .syntaxError offset cause := by
  unfold finish at h
  split at h
  next => exact ⟨_, rfl, (Except.error.inj h).symm⟩
  next => exact ⟨_, rfl, (Except.error.inj h).symm⟩
  next => exact ⟨_, rfl, (Except.error.inj h).symm⟩
  next =>
    split at h
    next => contradiction
    next => exact ⟨_, rfl, (Except.error.inj h).symm⟩

end Reading

theorem Literal.isFixed_of_read {cs : List Char} {cause : SyntaxCause}
    (h : read cs = .error cause) : cause.isFixed = true := by
  unfold read at h
  dsimp only at h
  split at h
  next =>
    split at h
    next => exact Except.error.inj h ▸ rfl
    next => contradiction
  next => contradiction

theorem Token.isFixed_of_read {c : Char} {cs : List Char} {cause : SyntaxCause}
    (h : read c cs = .error cause) : cause.isFixed = true := by
  cases kind c cs with
  | mark t hmark hread => simp [hread] at h
  | index hc hread =>
    rw [hread, readIndex] at h
    dsimp only at h
    split at h
    next => exact Except.error.inj h ▸ rfl
    next => contradiction
  | number hc hread =>
    rw [hread] at h
    cases hliteral : Literal.read (c :: cs) with
    | ok found => simp [hliteral, Except.map] at h
    | error cause' =>
      simp only [hliteral, Except.map, Except.error.injEq] at h
      exact h ▸ Literal.isFixed_of_read hliteral
  | word hc hread => simp [hread] at h
  | unexpected hread =>
    rw [hread] at h
    exact Except.error.inj h ▸ rfl

theorem Expr.error_of_parse {A : Arithmetic} {s : Scope} {source : String} {e : Error}
    (h : Expr.parse A s source = .error e) :
    (∃ t ∈ (Scan.ofString source).tokens, e.Blames s t.start t.token) ∨
      ∃ cause, cause.isFixed = true ∧ e = .syntaxError (Scan.ofString source).stop cause := by
  have hstops := (Scan.cuts_ofString source).stops
  unfold parse at h
  dsimp only at h
  split at h
  next e' hrun =>
    cases h
    obtain ⟨before, t, after, last, htokens, -, hstep⟩ := Reading.run_eq_error hrun
    exact .inl ⟨t, by simp [htokens], Reading.blames_of_step hstep⟩
  next =>
    split at h
    next cause hcause =>
      rw [hcause] at hstops
      cases hstops with
      | fault before c after cause hcs hstop hc hread =>
        exact .inr ⟨cause, Token.isFixed_of_read hread, (Except.error.inj h).symm⟩
    next => exact .inr (Reading.cause_of_finish h)

theorem Expr.isRecoverable_of_parse {A : Arithmetic} {s : Scope} {source : String} {e : Error}
    (h : Expr.parse A s source = .error e) : e.isRecoverable = true := by
  obtain ⟨t, -, hblames⟩ | ⟨cause, -, rfl⟩ := Expr.error_of_parse h
  · exact hblames.isRecoverable
  · rfl

end Reckoner

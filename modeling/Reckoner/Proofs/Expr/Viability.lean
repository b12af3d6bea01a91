import Reckoner.Proofs.Expr.Diagnosis
import Reckoner.Proofs.Expr.Recognition
import Reckoner.Proofs.Token.Bytewise

/-! Where an unreadable formula is reported to be wrong. Whatever has been accepted can be completed,
since an operand can always be given and every parenthesis closed; and a token that is refused could
not have been accepted with anything behind it. So the report is about the first token that has no
right continuation. -/
namespace Reckoner

def Token.resolves (s : Scope) : Token → Bool
  | .index n => (s.resolveIndex n).isOk
  | .word name call => (call && (Intrinsic.ofName? name).isSome) || (s.resolveName name).isOk
  | _ => true

/-- `Refuses s offset t e`: the error says that the token `t` at byte `offset` is wrong there, or
that it names no argument. -/
inductive Error.Refuses (s : Scope) (offset : Nat) (t : Token) : Error → Prop
  | place (cause : SyntaxCause) : Refuses s offset t (.syntaxError offset cause)
  | index (n : UInt64) (ht : t = .index n) (hn : t.resolves s = false) :
    Refuses s offset t (.argNumber n s.count)
  | name (name : String) (call : Bool) (ht : t = .word name call) (hn : t.resolves s = false) :
    Refuses s offset t (.argName name)

/-- Whether the token lies before the place that the error is about: the byte of a syntax error, or
else the first token that names no argument. -/
def Error.isBehind (s : Scope) : Error → Spanned → Bool
  | .syntaxError offset _, t => t.start < offset
  | _, t => t.token.resolves s

def Viable (A : Arithmetic) (s : Scope) (ts : List Token) : Prop :=
  ∃ us e, Derives A s .sum (ts ++ us) e

variable {A : Arithmetic} {s : Scope}

theorem Error.Blames.refuses {offset : Nat} {t : Token} {e : Error} (h : e.Blames s offset t) :
    e.Refuses s offset t := by
  cases h with
  | place hcause => exact .place _
  | @index n ht hn =>
    exact .index n ht (by simp [ht, Token.resolves, hn, Except.isOk, Except.toBool])
  | @name name call ht hcall hname =>
    refine .name name call ht ?_
    cases call <;> simp_all [Token.resolves, Except.isOk, Except.toBool]

namespace Reading

variable {r next : Reading} {offset : Nat} {t : Token} {e : Error}

theorem resolves_of_readOperand (h : r.readOperand A s offset t = .ok next) :
    t.resolves s = true := by
  cases t with
  | index n =>
    rw [readOperand] at h
    split at h
    next i hi => simp [Token.resolves, hi, Except.isOk, Except.toBool]
    next => contradiction
  | word name call =>
    rw [readOperand] at h
    split at h
    next f hf =>
      cases call with
      | false => contradiction
      | true => simp_all [Token.resolves]
    next =>
      split at h
      next i hi => simp [Token.resolves, hi, Except.isOk, Except.toBool]
      next => contradiction
  | _ => rfl

theorem resolves_of_step (h : r.step A s offset t = .ok next) : t.resolves s = true := by
  unfold step at h
  split at h
  next => exact resolves_of_readOperand h
  next =>
    unfold readMagnitude at h
    split at h
    next => rfl
    next => contradiction
  next =>
    unfold readOpening at h
    split at h
    next => rfl
    next => contradiction
  next =>
    unfold readContinuation at h
    split at h
    next => rfl
    next => rfl
    next => split at h <;> contradiction

theorem refuses_of_step (h : r.step A s offset t = .error e) : e.Refuses s offset t :=
  (blames_of_step h).refuses

theorem error_of_finish (h : r.finish offset = .error e) :
    ∃ cause, e = .syntaxError offset cause := by
  obtain ⟨cause, -, he⟩ := cause_of_finish h
  exact ⟨cause, he⟩

theorem resolves_of_run {tokens : List Spanned} (h : r.run A s tokens = .ok next) :
    ∀ t ∈ tokens, t.token.resolves s = true := by
  induction tokens generalizing r with
  | nil => simp
  | cons t tokens ih =>
    rw [run] at h
    split at h
    next between hstep => exact List.forall_mem_cons.2 ⟨resolves_of_step hstep, ih h⟩
    next => contradiction

/-! What has been accepted can be completed. -/

theorem Spells.steps {ts us : List Token} (h : r.Spells A s ts) (hsteps : Steps A s r us next) :
    next.Spells A s (ts ++ us) := by
  induction hsteps generalizing ts with
  | nil r => rwa [List.append_nil]
  | cons hstep _ ih =>
    have hrest := ih (h.step (hstep 0))
    rwa [List.append_assoc] at hrest

def Completes (A : Arithmetic) (s : Scope) (r : Reading) : Prop :=
  ∃ us last e, Steps A s r us last ∧ last.finish 0 = .ok e

theorem Completes.of_step (hstep : ∀ offset, r.step A s offset t = .ok next)
    (h : next.Completes A s) : r.Completes A s := by
  obtain ⟨us, last, e, hsteps, hfinish⟩ := h
  exact ⟨t :: us, last, e, .cons hstep hsteps, hfinish⟩

theorem completes_continuation (es : List Enclosure) (w : Waiting) (e : Expr) :
    Completes A s ⟨es, w, .continuation e⟩ := by
  induction es generalizing w e with
  | nil => exact ⟨[], _, _, .nil _, rfl⟩
  | cons enclosure outer ih =>
    exact .of_step (t := .closing) (fun _ => rfl) (ih enclosure.outside _)

theorem completes (r : Reading) : r.Completes A s := by
  obtain ⟨es, w, expects⟩ := r
  have hoperand (es : List Enclosure) (w : Waiting) : Completes A s ⟨es, w, .operand⟩ :=
    .of_step (t := .number ⟨0, 0, 0, false⟩) (fun _ => rfl) (completes_continuation es w _)
  cases expects with
  | operand => exact hoperand es w
  | magnitude negative =>
    exact .of_step (t := .number ⟨0, 0, 0, false⟩) (fun _ => rfl) (completes_continuation es w _)
  | opening f => exact .of_step (t := .opening) (fun _ => rfl) (hoperand _ _)
  | continuation e => exact completes_continuation es w e

theorem viable_of_run {tokens : List Spanned} (h : start.run A s tokens = .ok next) :
    Viable A s (tokens.map Spanned.token) := by
  obtain ⟨us, last, e, hsteps, hfinish⟩ := next.completes (A := A) (s := s)
  exact ⟨us, e, ((Spells.start.run h).steps hsteps).finish hfinish⟩

/-! What is refused has no completion. -/

theorem Steps.split {ts us : List Token} {last : Reading} (h : Steps A s r (ts ++ us) last) :
    ∃ between, Steps A s r ts between ∧ Steps A s between us last := by
  induction ts generalizing r with
  | nil => exact ⟨r, .nil r, h⟩
  | cons t ts ih =>
    cases h with
    | cons hstep hrest =>
      obtain ⟨between, hfirst, hsecond⟩ := ih hrest
      exact ⟨between, .cons hstep hfirst, hsecond⟩

theorem not_viable_of_step {tokens : List Spanned} {last : Reading}
    (hrun : start.run A s tokens = .ok last) (hstep : last.step A s offset t = .error e) :
    ¬ Viable A s (tokens.map Spanned.token ++ [t]) := by
  rintro ⟨us, tree, hderives⟩
  rw [List.append_assoc] at hderives
  obtain ⟨final, hsteps, -⟩ := steps_of_derives hderives
  obtain ⟨between, hfirst, hsecond⟩ := hsteps.split
  cases hrun.symm.trans hfirst.run
  cases hsecond with
  | cons hok _ => cases hstep.symm.trans (hok offset)

theorem not_derives_of_finish {tokens : List Spanned} {last : Reading}
    (hrun : start.run A s tokens = .ok last) (hfinish : last.finish offset = .error e)
    (tree : Expr) : ¬ Derives A s .sum (tokens.map Spanned.token) tree := by
  intro hderives
  obtain ⟨final, hsteps, hok⟩ := steps_of_derives hderives
  cases hrun.symm.trans hsteps.run
  cases hfinish.symm.trans (hok offset)

end Reading

/-! Where a report stands. -/

/-- The end of the text, or the start of a character that is not blank. -/
structure Text.Solid (source : String) (offset : Nat) : Prop where
  inside : offset ≤ source.utf8ByteSize
  boundary : String.Pos.Raw.IsValid source ⟨offset⟩
  visible : ∀ b, (Text.bytes source)[offset]? = some b → Lexer.isSpacing b = false

namespace Text

variable {source : String}

theorem solid_of_append {before : List Char} {c : Char} {after : List Char}
    (hsource : source.toList = before ++ c :: after) (hc : isSpacing c = false) :
    Solid source (byteLength before) := by
  have hboundary := isValid_of_append hsource
  refine ⟨hboundary.le_utf8ByteSize, hboundary, fun b hb => ?_⟩
  obtain ⟨first, more, hfirst, hmem⟩ := encode_cons_eq c after
  rw [← encode_toList, hsource, encode_append, hfirst, ← length_encode,
    List.getElem?_append_right (Nat.le_refl _), Nat.sub_self] at hb
  obtain rfl : first = b := by simpa using hb
  exact (Matches.spacing c first hmem).trans hc

theorem solid_end : Solid source source.utf8ByteSize := by
  have hboundary := isValid_of_append (List.append_nil source.toList).symm
  rw [byteLength_toList] at hboundary
  refine ⟨Nat.le_refl _, hboundary, fun b hb => ?_⟩
  rw [← byteLength_toList, ← length_encode, encode_toList] at hb
  simp at hb

end Text

theorem Spanned.Placed.solid {source : String} {t : Spanned} (h : t.Placed 0 source.toList) :
    Text.Solid source t.start := by
  obtain ⟨before, c, piece, after, hsource, hstart, -, hc, -⟩ := h
  rw [hstart, Nat.zero_add]
  exact Text.solid_of_append hsource hc

theorem Scan.Stops.solid {source : String} {stop : Nat} {fault : Option SyntaxCause}
    (h : Stops 0 source.toList stop fault) : Text.Solid source stop := by
  cases h with
  | finished hstop =>
    rw [hstop, Nat.zero_add, Text.byteLength_toList]
    exact Text.solid_end
  | fault before c after cause hsource hstop hc hread =>
    rw [hstop, Nat.zero_add]
    exact Text.solid_of_append hsource hc

namespace Error

variable {source : String} {e : Error}

def before (s : Scope) (source : String) (e : Error) : List Token :=
  ((Scan.ofString source).tokens.takeWhile (e.isBehind s)).map Spanned.token

def point? (s : Scope) (source : String) (e : Error) : Option Spanned :=
  (Scan.ofString source).tokens.find? fun t => !e.isBehind s t

/-- The error is about the first place from which on the text would have to change: what is before
can be completed, and not with the token that is there. -/
structure Leftmost (A : Arithmetic) (s : Scope) (source : String) (e : Error) : Prop where
  viable : Viable A s (e.before s source)
  token : ∀ t, e.point? s source = some t →
    e.Refuses s t.start t.token ∧ ¬ Viable A s (e.before s source ++ [t.token])
  ending : e.point? s source = none → ∃ cause,
    e = .syntaxError (Scan.ofString source).stop cause ∧
    (∀ fault, (Scan.ofString source).fault = some fault → cause = fault) ∧
    ((Scan.ofString source).fault = none → ∀ tree, ¬ Derives A s .sum (e.before s source) tree)
  solid : ∀ offset cause, e = .syntaxError offset cause → Text.Solid source offset

theorem Refuses.isBehind {t : Spanned} (h : e.Refuses s t.start t.token) {u : Spanned}
    (hstart : u.start < t.start) (hu : u.token.resolves s = true) : e.isBehind s u = true := by
  cases h with
  | place cause => simpa [Error.isBehind] using hstart
  | index n ht hn => exact hu
  | name name call ht hn => exact hu

theorem Refuses.isBehind_self {t : Spanned} (h : e.Refuses s t.start t.token) :
    e.isBehind s t = false := by
  cases h with
  | place cause => simp [Error.isBehind]
  | index n ht hn => exact hn
  | name name call ht hn => exact hn

theorem start_lt_of_append {first after : List Spanned} {t : Spanned}
    (htokens : (Scan.ofString source).tokens = first ++ t :: after) :
    ∀ u ∈ first, u.start < t.start := by
  intro u hu
  have hcuts := Scan.cuts_ofString source
  have hspan := hcuts.span u (by simp [htokens, hu])
  have hordered := hcuts.ordered
  rw [htokens, List.pairwise_append] at hordered
  have hstop := hordered.2.2 u hu t (by simp)
  omega

theorem leftmost_of_step {first after : List Spanned} {t : Spanned} {last : Reading}
    (htokens : (Scan.ofString source).tokens = first ++ t :: after)
    (hrun : Reading.start.run A s first = .ok last)
    (hstep : last.step A s t.start t.token = .error e) : e.Leftmost A s source := by
  have hrefuses := Reading.refuses_of_step hstep
  have hself := hrefuses.isBehind_self
  have hfirst : ∀ u ∈ first, e.isBehind s u = true := fun u hu =>
    hrefuses.isBehind (start_lt_of_append htokens u hu) (Reading.resolves_of_run hrun u hu)
  have hbefore : e.before s source = first.map Spanned.token := by
    rw [before, htokens, List.takeWhile_append_of_pos hfirst]
    simp [hself]
  have hpoint : e.point? s source = some t := by
    have hnone : first.find? (fun u => !e.isBehind s u) = none := by
      simpa using hfirst
    rw [point?, htokens, List.find?_append, hnone]
    simp [hself]
  refine ⟨?_, ?_, ?_, ?_⟩
  · rw [hbefore]
    exact Reading.viable_of_run hrun
  · intro u hu
    obtain rfl : t = u := by simpa [hpoint] using hu
    rw [hbefore]
    exact ⟨hrefuses, Reading.not_viable_of_step hrun hstep⟩
  · simp [hpoint]
  · rintro offset cause rfl
    cases hrefuses
    exact ((Scan.cuts_ofString source).placed t (by simp [htokens])).solid

theorem leftmost_of_finish {last : Reading}
    (hrun : Reading.start.run A s (Scan.ofString source).tokens = .ok last)
    (cause : SyntaxCause)
    (hfault : ∀ fault, (Scan.ofString source).fault = some fault → cause = fault)
    (hfinish : (Scan.ofString source).fault = none →
      ∃ e', last.finish (Scan.ofString source).stop = .error e') :
    Leftmost A s source (.syntaxError (Scan.ofString source).stop cause) := by
  have hcuts := Scan.cuts_ofString source
  have hall : ∀ u ∈ (Scan.ofString source).tokens,
      isBehind s (.syntaxError (Scan.ofString source).stop cause) u = true := by
    intro u hu
    have hspan := hcuts.span u hu
    simp only [isBehind, decide_eq_true_eq]
    omega
  have hbefore : before s source (.syntaxError (Scan.ofString source).stop cause) =
      (Scan.ofString source).tokens.map Spanned.token := by
    rw [before, takeWhile_eq_self hall]
  refine ⟨?_, ?_, ?_, ?_⟩
  · rw [hbefore]
    exact Reading.viable_of_run hrun
  · intro t ht
    have hmem := List.mem_of_find?_eq_some ht
    have hnot := List.find?_some ht
    simp [hall t hmem] at hnot
  · intro _
    refine ⟨cause, rfl, hfault, fun hnone tree => ?_⟩
    obtain ⟨e', he'⟩ := hfinish hnone
    rw [hbefore]
    exact Reading.not_derives_of_finish hrun he' tree
  · intro offset cause' heq
    cases heq
    exact hcuts.stops.solid

end Error

/-- A formula that cannot be read is reported at its first token, unreadable character or end that
nothing could repair, at the start of a character and never at a blank. -/
theorem Expr.leftmost_of_parse (A : Arithmetic) (s : Scope) (source : String) (e : Error)
    (h : Expr.parse A s source = .error e) : e.Leftmost A s source := by
  unfold Expr.parse at h
  dsimp only at h
  split at h
  next e' hrun =>
    cases h
    obtain ⟨first, t, after, last, htokens, hfirst, hstep⟩ := Reading.run_eq_error hrun
    exact Error.leftmost_of_step htokens hfirst hstep
  next last hrun =>
    split at h
    next cause hcause =>
      cases h
      apply Error.leftmost_of_finish hrun
      · intro fault hfault
        simpa [hcause] using hfault
      · intro hnone
        simp [hnone] at hcause
    next hnone =>
      obtain ⟨cause, rfl⟩ := Reading.error_of_finish h
      apply Error.leftmost_of_finish hrun
      · simp [hnone]
      · exact fun _ => ⟨_, h⟩

theorem Expr.leftmost_of_parse_sign :
    Expr.parse .whole ⟨["größe"], 1⟩ "(größe + sin( \t* $7" =
      .error (.syntaxError 17 .operandExpected) ∧
    Viable .whole ⟨["größe"], 1⟩
      [.opening, .word "größe" false, .operator .add, .word "sin" true, .opening] ∧
    ¬ Viable .whole ⟨["größe"], 1⟩
      [.opening, .word "größe" false, .operator .add, .word "sin" true, .opening, .operator .mul] ∧
    Text.Solid "(größe + sin( \t* $7" 17 := by
  have hparse : Expr.parse .whole ⟨["größe"], 1⟩ "(größe + sin( \t* $7" =
      .error (.syntaxError 17 .operandExpected) := rfl
  have hleftmost := Expr.leftmost_of_parse .whole ⟨["größe"], 1⟩ _ _ hparse
  have htoken := hleftmost.token ⟨.operator .mul, 17, 18⟩ rfl
  exact ⟨hparse, hleftmost.viable, htoken.2, hleftmost.solid 17 _ rfl⟩

end Reckoner

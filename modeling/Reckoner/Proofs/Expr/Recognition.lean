import Reckoner.Expr.Grammar
import Reckoner.Expr.Parse
import Reckoner.Proofs.Number.Whole

/-! The reader accepts exactly the token lists of the grammar. Backward, the state of the reader
spells the tokens that it has read, so that a finished reading is a derivation. Forward, a derivation
drives the reader, which is an induction over derivations with one statement for each kind of
phrase. -/
namespace Reckoner

theorem Intrinsic.eq_name_of_ofName? {name : String} {f : Intrinsic} (h : ofName? name = some f) :
    name = f.name := by
  unfold ofName? at h
  split at h
  · cases h; rfl
  · cases h; rfl
  · cases h; rfl
  · contradiction

namespace Scope

theorem resolveIndex_eq_ok_iff {s : Scope} {n : UInt64} {i : UInt16} :
    s.resolveIndex n = .ok i ↔ n.toNat < s.count ∧ n.toNat ≤ maxIndex ∧ n.toUInt16 = i := by
  unfold resolveIndex
  by_cases h : n.toNat < s.count ∧ n.toNat ≤ maxIndex
  · simp [h]
  · rw [if_neg h, ← and_assoc]
    simp [h]

theorem findIdx?_eq_some_iff_names {s : Scope} {name : String} {k : Nat} :
    (s.names.take s.count).findIdx? (· = name) = some k ↔ s.Names name k := by
  rw [List.findIdx?_eq_some_iff_getElem]
  simp only [Names, List.length_take, List.getElem_take, decide_eq_true_eq]
  constructor
  · rintro ⟨hk, hname, hfirst⟩
    refine ⟨by omega, ?_, ?_⟩
    · rw [List.getElem?_eq_getElem (by omega), hname]
    · intro j hj
      rw [List.getElem?_eq_getElem (by omega)]
      simpa using hfirst j hj
  · rintro ⟨hk, hname, hfirst⟩
    obtain ⟨hlt, hname⟩ := List.getElem?_eq_some_iff.1 hname
    refine ⟨by omega, hname, ?_⟩
    intro j hj heq
    exact hfirst j hj (by rw [List.getElem?_eq_getElem (by omega), heq])

theorem resolveName_eq_ok_iff {s : Scope} {name : String} {i : UInt16} :
    s.resolveName name = .ok i ↔ ∃ k, s.Names name k ∧ k ≤ maxIndex ∧ k.toUInt16 = i := by
  simp only [← findIdx?_eq_some_iff_names, resolveName]
  cases (s.names.take s.count).findIdx? (· = name) with
  | none => simp
  | some k => by_cases hk : k ≤ maxIndex <;> simp [hk]

end Scope

/-! Soundness. -/

section Spelling

variable (A : Arithmetic) (s : Scope)

/-- The tokens of an operator that waits for its right operand, after a left operand of kind `p`. -/
inductive Waiting.Side (p : Phrase) (additive : Bool) : Option (Expr × Operator) → List Token → Prop
  | none : Side p additive none []
  | some {ls : List Token} {l : Expr} {op : Operator} (hop : op.isAdditive = additive)
    (hl : Derives A s p ls l) : Side p additive (some (l, op)) (ls ++ [.operator op])

inductive Waiting.Spells (w : Waiting) (ts : List Token) : Prop
  | mk {ss ps : List Token} (hts : ts = ss ++ ps) (hsum : Side A s .sum true w.sum ss)
    (hproduct : Side A s .product false w.product ps)

def Enclosure.opener : Option Intrinsic → List Token
  | none => [.opening]
  | some f => [.word f.name true, .opening]

inductive Enclosure.Spell : List Enclosure → List Token → Prop
  | nil : Spell [] []
  | cons {call : Option Intrinsic} {outside : Waiting} {outer : List Enclosure}
    {ts os ws : List Token} (hts : ts = os ++ ws ++ opener call) (houter : Spell outer os)
    (houtside : outside.Spells A s ws) : Spell (⟨call, outside⟩ :: outer) ts

inductive Expectation.Spells : Expectation → List Token → Prop
  | operand : Spells .operand []
  | magnitude (negative : Bool) :
    Spells (.magnitude negative) [.operator (if negative then .sub else .add)]
  | opening (f : Intrinsic) : Spells (.opening f) [.word f.name true]
  | continuation {e : Expr} {ts : List Token} (he : Derives A s .operand ts e) :
    Spells (.continuation e) ts

inductive Reading.Spells (r : Reading) (ts : List Token) : Prop
  | mk {es ws xs : List Token} (hts : ts = es ++ ws ++ xs)
    (henclosures : Enclosure.Spell A s r.enclosures es) (hwaiting : r.waiting.Spells A s ws)
    (hexpects : r.expects.Spells A s xs)

end Spelling

variable {A : Arithmetic} {s : Scope}

namespace Waiting

theorem Spells.empty : Spells A s .empty [] := .mk rfl .none .none

theorem Side.join_product {waiting : Option (Expr × Operator)} {ps ts : List Token} {e : Expr}
    (h : Side A s .product false waiting ps) (he : Derives A s .operand ts e) :
    Derives A s .product (ps ++ ts) (join waiting e) := by
  cases h with
  | none => exact .factor ts e he
  | some hop hl =>
    rw [List.append_assoc]
    exact .product _ ts _ e _ hop hl he

theorem Side.join_sum {waiting : Option (Expr × Operator)} {ss ts : List Token} {e : Expr}
    (h : Side A s .sum true waiting ss) (he : Derives A s .product ts e) :
    Derives A s .sum (ss ++ ts) (join waiting e) := by
  cases h with
  | none => exact .term ts e he
  | some hop hl =>
    rw [List.append_assoc]
    exact .sum _ ts _ e _ hop hl he

theorem Spells.closeSum {w : Waiting} {ws ts : List Token} {e : Expr} (h : w.Spells A s ws)
    (he : Derives A s .operand ts e) : Derives A s .sum (ws ++ ts) (w.closeSum e) := by
  obtain ⟨rfl, hsum, hproduct⟩ := h
  rw [List.append_assoc]
  exact hsum.join_sum (hproduct.join_product he)

theorem Spells.continueWith {w : Waiting} {ws ts : List Token} {e : Expr} (h : w.Spells A s ws)
    (he : Derives A s .operand ts e) (op : Operator) :
    (w.continueWith e op).Spells A s (ws ++ ts ++ [.operator op]) := by
  unfold Waiting.continueWith
  by_cases hop : op.isAdditive = true
  · rw [if_pos hop]
    exact .mk (by simp) (.some hop (h.closeSum he)) .none
  · rw [if_neg hop]
    obtain ⟨rfl, hsum, hproduct⟩ := h
    exact .mk (by simp) hsum (.some (Bool.eq_false_iff.2 hop) (hproduct.join_product he))

end Waiting

namespace Reading

variable {r next : Reading} {es ws : List Token} {offset : Nat} {t : Token}

theorem Spells.start : Spells A s .start [] := .mk rfl .nil .empty .operand

theorem Spells.enclose (henclosures : Enclosure.Spell A s r.enclosures es)
    (hwaiting : r.waiting.Spells A s ws) (call : Option Intrinsic) :
    (r.enclose call).Spells A s (es ++ ws ++ Enclosure.opener call) :=
  .mk (by simp) (.cons rfl henclosures hwaiting) .empty .operand

theorem Spells.readOperand (henclosures : Enclosure.Spell A s r.enclosures es)
    (hwaiting : r.waiting.Spells A s ws) (hread : r.readOperand A s offset t = .ok next) :
    next.Spells A s (es ++ ws ++ [t]) := by
  -- Most tokens are an operand of their own.
  have hcomplete {e : Expr} (he : Derives A s .operand [t] e) :
      (r.complete e).Spells A s (es ++ ws ++ [t]) := .mk rfl henclosures hwaiting (.continuation he)
  cases t with
  | number l =>
    cases hread
    exact hcomplete (.number l)
  | index n =>
    rw [Reading.readOperand] at hread
    split at hread
    next i hresolve =>
      obtain ⟨hn, hi, rfl⟩ := Scope.resolveIndex_eq_ok_iff.1 hresolve
      cases hread
      exact hcomplete (.index n hn hi)
    next => contradiction
  | word name call =>
    rw [Reading.readOperand] at hread
    split at hread
    next f hf =>
      cases hread
      cases call with
      | false => contradiction
      | true =>
        have hname := Intrinsic.eq_name_of_ofName? hf
        rw [hname]
        exact .mk rfl henclosures hwaiting (.opening f)
    next hf =>
      split at hread
      next i hresolve =>
        obtain ⟨k, hnames, hk, rfl⟩ := Scope.resolveName_eq_ok_iff.1 hresolve
        cases hread
        refine hcomplete (.name name call k ?_ hnames hk)
        rintro rfl
        exact hf
      next => contradiction
  | operator op =>
    rw [Reading.readOperand] at hread
    split at hread
    next hop =>
      cases hread
      refine .mk rfl henclosures hwaiting ?_
      cases op with
      | add => exact .magnitude false
      | sub => exact .magnitude true
      | mul => contradiction
      | div => contradiction
    next => contradiction
  | opening =>
    cases hread
    exact Spells.enclose henclosures hwaiting none
  | closing => contradiction

theorem Spells.readMagnitude (henclosures : Enclosure.Spell A s r.enclosures es)
    (hwaiting : r.waiting.Spells A s ws) {negative : Bool}
    (hread : r.readMagnitude A negative offset t = .ok next) :
    next.Spells A s (es ++ ws ++ [.operator (if negative then .sub else .add), t]) := by
  cases t with
  | number l =>
    cases hread
    refine .mk rfl henclosures hwaiting (.continuation ?_)
    cases negative with
    | false => exact .plus l
    | true => exact .minus l
  | index n => contradiction
  | word name call => contradiction
  | operator op => contradiction
  | opening => contradiction
  | closing => contradiction

theorem Spells.readOpening (henclosures : Enclosure.Spell A s r.enclosures es)
    (hwaiting : r.waiting.Spells A s ws) {f : Intrinsic}
    (hread : r.readOpening f offset t = .ok next) :
    next.Spells A s (es ++ ws ++ [.word f.name true, t]) := by
  cases t with
  | opening =>
    cases hread
    exact Spells.enclose henclosures hwaiting (some f)
  | number l => contradiction
  | index n => contradiction
  | word name call => contradiction
  | operator op => contradiction
  | closing => contradiction

theorem derives_close {call : Option Intrinsic} {outside : Waiting} {ts : List Token} {e : Expr}
    (he : Derives A s .sum ts e) :
    Derives A s .operand (Enclosure.opener call ++ ts ++ [.closing])
      (Enclosure.close ⟨call, outside⟩ e) := by
  cases call with
  | none => exact .group ts e he
  | some f => exact .call f ts e he

theorem Spells.readContinuation (henclosures : Enclosure.Spell A s r.enclosures es)
    (hwaiting : r.waiting.Spells A s ws) {xs : List Token} {e : Expr}
    (he : Derives A s .operand xs e) (hread : r.readContinuation e offset t = .ok next) :
    next.Spells A s (es ++ ws ++ xs ++ [t]) := by
  unfold Reading.readContinuation at hread
  split at hread
  next op =>
    cases hread
    exact .mk (by simp) henclosures (hwaiting.continueWith he op) .operand
  next =>
    split at hread
    next => contradiction
    next enclosure outer houter =>
      cases hread
      rw [houter] at henclosures
      obtain _ | ⟨rfl, houter, houtside⟩ := henclosures
      exact .mk (by simp) houter houtside (.continuation (derives_close (hwaiting.closeSum he)))
  next => split at hread <;> contradiction

theorem Spells.step {ts : List Token} (h : r.Spells A s ts)
    (hstep : r.step A s offset t = .ok next) : next.Spells A s (ts ++ [t]) := by
  obtain ⟨rfl, henclosures, hwaiting, hexpects⟩ := h
  unfold Reading.step at hstep
  cases hr : r.expects with
  | operand =>
    rw [hr] at hstep hexpects
    cases hexpects
    rw [List.append_nil]
    exact Spells.readOperand henclosures hwaiting hstep
  | magnitude negative =>
    rw [hr] at hstep hexpects
    cases hexpects
    rw [List.append_assoc _ [_]]
    exact Spells.readMagnitude henclosures hwaiting hstep
  | opening f =>
    rw [hr] at hstep hexpects
    cases hexpects
    rw [List.append_assoc _ [_]]
    exact Spells.readOpening henclosures hwaiting hstep
  | continuation e =>
    rw [hr] at hstep hexpects
    cases hexpects with
    | continuation he => exact Spells.readContinuation henclosures hwaiting he hstep

theorem Spells.run {ts : List Token} (h : r.Spells A s ts) {tokens : List Spanned}
    (hrun : r.run A s tokens = .ok next) :
    next.Spells A s (ts ++ tokens.map Spanned.token) := by
  induction tokens generalizing r ts with
  | nil =>
    cases hrun
    rw [List.map_nil, List.append_nil]
    exact h
  | cons t tokens ih =>
    rw [Reading.run] at hrun
    split at hrun
    next between hstep =>
      have hrest := ih (h.step hstep) hrun
      rwa [List.append_assoc] at hrest
    next => contradiction

theorem Spells.finish {ts : List Token} (h : r.Spells A s ts) {e : Expr}
    (hfinish : r.finish offset = .ok e) : Derives A s .sum ts e := by
  obtain ⟨rfl, henclosures, hwaiting, hexpects⟩ := h
  unfold Reading.finish at hfinish
  split at hfinish
  next => contradiction
  next => contradiction
  next => contradiction
  next e' hr =>
    split at hfinish
    next hnil =>
      cases hfinish
      rw [hnil] at henclosures
      rw [hr] at hexpects
      cases henclosures
      cases hexpects with
      | continuation he => exact hwaiting.closeSum he
    next => contradiction

/-! Completeness. Where a token is accepted plays no role, so reading is followed over plain
tokens. -/

inductive Steps (A : Arithmetic) (s : Scope) : Reading → List Token → Reading → Prop
  | nil (r : Reading) : Steps A s r [] r
  | cons {r next last : Reading} {t : Token} {ts : List Token}
    (hstep : ∀ offset, r.step A s offset t = .ok next) (hrest : Steps A s next ts last) :
    Steps A s r (t :: ts) last

namespace Steps

variable {between last : Reading} {ts us : List Token}

theorem append (h : Steps A s r ts between) (h' : Steps A s between us last) :
    Steps A s r (ts ++ us) last := by
  induction h with
  | nil => exact h'
  | cons hstep _ ih => exact .cons hstep (ih h')

theorem snoc (h : Steps A s r ts between) (hstep : ∀ offset, between.step A s offset t = .ok last) :
    Steps A s r (ts ++ [t]) last :=
  h.append (.cons hstep (.nil last))

theorem unique (h : Steps A s r ts last) {last' : Reading} (h' : Steps A s r ts last') :
    last = last' := by
  induction h with
  | nil =>
    cases h'
    rfl
  | cons hstep _ ih =>
    cases h' with
    | cons hstep' hrest' =>
      have hsame := (hstep 0).symm.trans (hstep' 0)
      cases hsame
      exact ih hrest'

theorem run {tokens : List Spanned} (h : Steps A s r (tokens.map Spanned.token) last) :
    r.run A s tokens = .ok last := by
  induction tokens generalizing r with
  | nil =>
    cases h
    rfl
  | cons t tokens ih =>
    cases h with
    | cons hstep hrest =>
      rw [Reading.run, hstep t.start]
      exact ih hrest

end Steps

/-- What reading a phrase does. An operand leaves everything else as it is; a product or a sum is
read from a place where one may start, and leaves it to the state to put its parts together. -/
def Reads (A : Arithmetic) (s : Scope) : Phrase → List Token → Expr → Prop
  | .operand, ts, e => ∀ (es : List Enclosure) (w : Waiting),
    Steps A s ⟨es, w, .operand⟩ ts ⟨es, w, .continuation e⟩
  | .product, ts, e => ∀ (es : List Enclosure) (sum : Option (Expr × Operator)),
    ∃ (product : Option (Expr × Operator)) (o : Expr),
      Steps A s ⟨es, ⟨sum, none⟩, .operand⟩ ts ⟨es, ⟨sum, product⟩, .continuation o⟩ ∧
      Waiting.join product o = e
  | .sum, ts, e => ∀ (es : List Enclosure), ∃ (w : Waiting) (o : Expr),
    Steps A s ⟨es, .empty, .operand⟩ ts ⟨es, w, .continuation o⟩ ∧ w.closeSum o = e

theorem Reads.enclosed {ts : List Token} {e : Expr} (h : Reads A s .sum ts e)
    (call : Option Intrinsic) (es : List Enclosure) (w : Waiting) :
    Steps A s (Reading.enclose ⟨es, w, .operand⟩ call) (ts ++ [.closing])
      ⟨es, w, .continuation (Enclosure.close ⟨call, w⟩ e)⟩ := by
  obtain ⟨inner, o, hsteps, rfl⟩ := h (⟨call, w⟩ :: es)
  exact hsteps.snoc fun _ => rfl

theorem reads_of_derives {p : Phrase} {ts : List Token} {e : Expr} (h : Derives A s p ts e) :
    Reads A s p ts e := by
  induction h with
  | number l => exact fun es w => .cons (fun _ => rfl) (.nil _)
  | plus l => exact fun es w => .cons (fun _ => rfl) (.cons (fun _ => rfl) (.nil _))
  | minus l => exact fun es w => .cons (fun _ => rfl) (.cons (fun _ => rfl) (.nil _))
  | index n hn hi =>
    intro es w
    have hresolve : s.resolveIndex n = .ok n.toUInt16 :=
      Scope.resolveIndex_eq_ok_iff.2 ⟨hn, hi, rfl⟩
    refine .cons (fun offset => ?_) (.nil _)
    simp only [Reading.step, Reading.readOperand, hresolve]
    rfl
  | name name call i hf hn hi =>
    intro es w
    have hresolve : s.resolveName name = .ok i.toUInt16 :=
      Scope.resolveName_eq_ok_iff.2 ⟨i, hn, hi, rfl⟩
    have hcall : (if call then Intrinsic.ofName? name else none) = none := by
      cases call with
      | false => rfl
      | true => exact hf rfl
    refine .cons (fun offset => ?_) (.nil _)
    simp only [Reading.step, Reading.readOperand, hcall, hresolve]
    rfl
  | call f ts e he ih =>
    intro es w
    have hword : ∀ offset, Reading.step A s ⟨es, w, .operand⟩ offset (.word f.name true) =
        .ok ⟨es, w, .opening f⟩ := by
      intro offset
      simp only [Reading.step, Reading.readOperand, if_true, Intrinsic.ofName?_name]
    exact .cons hword (.cons (fun _ => rfl) (Reads.enclosed ih (some f) es w))
  | group ts e he ih => exact fun es w => .cons (fun _ => rfl) (Reads.enclosed ih none es w)
  | factor ts e he ih => exact fun es sum => ⟨none, e, ih es _, rfl⟩
  | product ls rs l r op hop hl hr ihl ihr =>
    intro es sum
    obtain ⟨product, o, hsteps, rfl⟩ := ihl es sum
    have hoperator : ∀ offset, Reading.step A s ⟨es, ⟨sum, product⟩, .continuation o⟩ offset
        (.operator op) = .ok ⟨es, ⟨sum, some (Waiting.join product o, op)⟩, .operand⟩ := by
      intro offset
      simp [Reading.step, Reading.readContinuation, Waiting.continueWith, Waiting.closeProduct, hop]
    exact ⟨some (_, op), r, hsteps.append (.cons hoperator (ihr es _)), rfl⟩
  | term ts e he ih =>
    intro es
    obtain ⟨product, o, hsteps, rfl⟩ := ih es none
    exact ⟨⟨none, product⟩, o, hsteps, rfl⟩
  | sum ls rs l r op hop hl hr ihl ihr =>
    intro es
    obtain ⟨w, o, hsteps, rfl⟩ := ihl es
    have hoperator : ∀ offset, Reading.step A s ⟨es, w, .continuation o⟩ offset (.operator op) =
        .ok ⟨es, ⟨some (w.closeSum o, op), none⟩, .operand⟩ := by
      intro offset
      simp [Reading.step, Reading.readContinuation, Waiting.continueWith, hop]
    obtain ⟨product, o', hsteps', rfl⟩ := ihr es (some (w.closeSum o, op))
    exact ⟨_, o', hsteps.append (.cons hoperator hsteps'), rfl⟩

theorem steps_of_derives {ts : List Token} {e : Expr} (h : Derives A s .sum ts e) :
    ∃ last, Steps A s .start ts last ∧ ∀ offset, last.finish offset = .ok e := by
  obtain ⟨w, o, hsteps, rfl⟩ := reads_of_derives h []
  exact ⟨_, hsteps, fun _ => rfl⟩

end Reading

theorem Derives.unique {ts : List Token} {e e' : Expr} (h : Derives A s .sum ts e)
    (h' : Derives A s .sum ts e') : e = e' := by
  obtain ⟨last, hsteps, hfinish⟩ := Reading.steps_of_derives h
  obtain ⟨last', hsteps', hfinish'⟩ := Reading.steps_of_derives h'
  obtain rfl := hsteps.unique hsteps'
  have hsame := (hfinish 0).symm.trans (hfinish' 0)
  cases hsame
  rfl

/-- A formula can be read, with the tree `e`, exactly if the whole text is made of tokens and these
derive `e`; and no list of tokens derives two trees. -/
theorem Expr.parse_eq_ok_iff_derives (A : Arithmetic) (s : Scope) (source : String) :
    (∀ e, Expr.parse A s source = .ok e ↔
      (Scan.ofString source).fault = none ∧
      Derives A s .sum ((Scan.ofString source).tokens.map Spanned.token) e) ∧
    ∀ ts e e', Derives A s .sum ts e → Derives A s .sum ts e' → e = e' := by
  refine ⟨fun e => ⟨fun hparse => ?_, ?_⟩, fun ts e e' => Derives.unique⟩
  · unfold Expr.parse at hparse
    dsimp only at hparse
    split at hparse
    next => contradiction
    next r hrun =>
      split at hparse
      next => contradiction
      next hfault => exact ⟨hfault, (Reading.Spells.start.run hrun).finish hparse⟩
  · rintro ⟨hfault, hderives⟩
    obtain ⟨last, hsteps, hfinish⟩ := Reading.steps_of_derives hderives
    simp only [Expr.parse, hsteps.run, hfault, hfinish]

theorem Expr.parse_eq_ok_iff_derives_difference :
    (Scan.ofString "-1 *x - sin(2)/$1").fault = none ∧
    Derives .whole ⟨["x"], 2⟩ .sum
      [.operator .sub, .number ⟨1, 0, 0, false⟩, .operator .mul, .word "x" false, .operator .sub,
        .word "sin" true, .opening, .number ⟨2, 0, 0, false⟩, .closing, .operator .div, .index 1]
      (.binary .sub (.binary .mul (.num ⟨0xbff0000000000000⟩) (.arg 0))
        (.binary .div (.call .sin (.num ⟨0x4000000000000000⟩)) (.arg 1))) := by
  have hparse : Expr.parse .whole ⟨["x"], 2⟩ "-1 *x - sin(2)/$1" =
      .ok (.binary .sub (.binary .mul (.num ⟨0xbff0000000000000⟩) (.arg 0))
        (.binary .div (.call .sin (.num ⟨0x4000000000000000⟩)) (.arg 1))) := by
    rfl
  exact ((Expr.parse_eq_ok_iff_derives .whole ⟨["x"], 2⟩ "-1 *x - sin(2)/$1").1 _).1 hparse

end Reckoner

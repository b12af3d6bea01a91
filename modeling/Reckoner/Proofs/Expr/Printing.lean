import Reckoner.Expr.Written
import Reckoner.Proofs.Expr.Recognition
import Reckoner.Proofs.Token.Joining

/-! A tree that is written out is read back. The text of every part is an operand of the grammar,
with whatever follows it that cannot be part of its last token. -/
namespace Reckoner

open Scan (Takes)

/-! Single tokens, in front of anything. -/

section Tokens

variable (rest : List Char)

theorem Scan.Takes.mark {c : Char} {t : Token} (hc : Text.isSpacing c = false)
    (h : Token.mark? c = some t) : Takes (c :: rest) [t] rest := by
  have hread := Token.read_of_mark? h ([] ++ rest)
  exact .token hc hread (.refl rest)

theorem Scan.Takes.opening : Takes ('(' :: rest) [.opening] rest := .mark rest rfl rfl

theorem Scan.Takes.closing : Takes (')' :: rest) [.closing] rest := .mark rest rfl rfl

theorem Scan.Takes.operator (op : Operator) :
    Takes (' ' :: op.symbol :: ' ' :: rest) [.operator op] rest := by
  have hsymbol : Takes (op.symbol :: ' ' :: rest) [.operator op] (' ' :: rest) := by
    apply Takes.mark
    · cases op <;> rfl
    · cases op <;> rfl
  have hblank : Takes (' ' :: rest) [] rest := .blank rfl (.refl rest)
  exact .blank rfl (hsymbol.trans hblank)

theorem Scan.Takes.word {name : String} (hne : name ≠ "")
    (hname : ∀ c ∈ name.toList, Token.isWordChar c = true)
    (hrest : ∀ d, rest.head? = some d → Token.isWordChar d = false) :
    Takes (name.toList ++ rest) [.word name (rest.head? = some '(')] rest := by
  obtain ⟨c, piece, hchars⟩ : ∃ c piece, name.toList = c :: piece := by
    apply List.exists_cons_of_ne_nil
    simpa using hne
  have hofList : String.ofList (c :: piece) = name := by rw [← hchars, String.ofList_toList]
  rw [hchars, List.forall_mem_cons] at hname
  have hc : Text.isSpacing c = false := by
    apply Bool.eq_false_iff.2
    intro hspacing
    simp only [Text.isSpacing, Bool.or_eq_true, decide_eq_true_eq] at hspacing
    rcases hspacing with (((rfl | rfl) | rfl) | rfl) | rfl <;> exact absurd hname.1 (by decide)
  have hread := Token.read_word hname.1 hname.2 hrest
  rw [hofList] at hread
  rw [hchars]
  exact .token hc hread (.refl rest)

theorem Scan.Takes.index (i : UInt16) (hrest : Token.Separates rest) :
    Takes ('$' :: Nat.toDigits 10 i.toNat ++ rest) [.index i.toUInt64] rest := by
  refine .token rfl ?_ (.refl rest)
  exact (Token.readIndex_append hrest _).trans (Token.readIndex_toDigits i)

end Tokens

theorem Token.separates_space (rest : List Char) : Separates (' ' :: rest) :=
  separates_cons rest (by decide)

theorem Token.separates_closing (rest : List Char) : Separates (')' :: rest) :=
  separates_cons rest (by decide)

theorem Scope.toNat_le_maxIndex (i : UInt16) : i.toNat ≤ Scope.maxIndex :=
  Nat.le_of_lt_succ i.toNat_lt

variable {A : Arithmetic} {s : Scope}

theorem Expr.parse_of_derives {source : String} {e : Expr}
    (hfault : (Scan.ofString source).fault = none)
    (h : Derives A s .sum ((Scan.ofString source).tokens.map Spanned.token) e) :
    Expr.parse A s source = .ok e := by
  obtain ⟨last, hsteps, hfinish⟩ := Reading.steps_of_derives h
  simp only [Expr.parse, hsteps.run, hfault, hfinish]

theorem Derives.binary {ls rs : List Token} {l r : Expr} (op : Operator)
    (hl : Derives A s .operand ls l) (hr : Derives A s .operand rs r) :
    Derives A s .sum (ls ++ .operator op :: rs) (.binary op l r) := by
  cases hop : op.isAdditive with
  | true => exact .sum ls rs l r op hop (.term _ _ (.factor _ _ hl)) (.factor _ _ hr)
  | false => exact .term _ _ (.product ls rs l r op hop (.factor _ _ hl) hr)

namespace Written

def Spells (A : Arithmetic) (s : Scope) (w : Written) (ts : List Token) : Prop :=
  Derives A s .operand ts w.expr ∧
    ∀ rest, Token.Separates rest → Takes (w.chars ++ rest) ts rest

theorem spells_number {text : String} {value : Double} (h : (number text value).Legible A s) :
    ∃ ts, (number text value).Spells A s ts := by
  obtain ⟨hfault, l, htokens, rfl⟩ := h
  have htakes := Takes.of_cuts (Scan.cuts_ofString text) hfault
  rw [htokens] at htakes
  exact ⟨_, .number l, fun rest hrest => htakes.append hrest⟩

theorem spells_position {i : UInt16} (h : (position i).Legible A s) :
    (position i).Spells A s [.index i.toUInt64] := by
  refine ⟨?_, fun rest hrest => Takes.index rest i hrest⟩
  have hi : i.toUInt64.toNat = i.toNat := i.toNat_toUInt64
  have hderives : Derives A s .operand [.index i.toUInt64] (.arg i.toUInt64.toUInt16) := by
    apply Derives.index
    · rw [hi]
      exact h
    · rw [hi]
      exact Scope.toNat_le_maxIndex i
  rwa [i.toUInt16_toUInt64] at hderives

theorem spells_name {text : String} {i : UInt16} (h : (name text i).Legible A s) :
    (name text i).Spells A s [.word text false] := by
  obtain ⟨hne, hchars, hnames⟩ := h
  constructor
  · have hderives : Derives A s .operand [.word text false] (.arg (UInt16.ofNat i.toNat)) :=
      .name text false i.toNat (by simp) hnames (Scope.toNat_le_maxIndex i)
    rwa [UInt16.ofNat_toNat] at hderives
  · intro rest hrest
    have hword := Takes.word rest hne hchars fun d hd => (hrest d hd).1
    have hcall : ¬ rest.head? = some '(' := fun hopening => (hrest '(' hopening).2.2.2 rfl
    simp only [hcall, decide_false] at hword
    exact hword

theorem Spells.binary {l r : Written} {ls rs : List Token} (op : Operator) (hl : l.Spells A s ls)
    (hr : r.Spells A s rs) :
    (binary op l r).Spells A s (.opening :: (ls ++ .operator op :: rs) ++ [.closing]) := by
  refine ⟨.group _ _ (hl.1.binary op hr.1), fun rest _ => ?_⟩
  have hleft := hl.2 (' ' :: op.symbol :: ' ' :: (r.chars ++ ')' :: rest))
    (Token.separates_space _)
  have hright := hr.2 (')' :: rest) (Token.separates_closing rest)
  have htakes := (Takes.opening _).trans <| hleft.trans <| (Takes.operator _ op).trans <|
    hright.trans (Takes.closing rest)
  simpa [chars] using htakes

theorem Spells.call {w : Written} {ts : List Token} (f : Intrinsic) (h : w.Spells A s ts) :
    (call f w).Spells A s (.word f.name true :: .opening :: ts ++ [.closing]) := by
  refine ⟨.call f ts w.expr (.term _ _ (.factor _ _ h.1)), fun rest _ => ?_⟩
  have hne : f.name ≠ "" := by cases f <;> decide
  have hname : ∀ c ∈ f.name.toList, Token.isWordChar c = true := by
    cases f <;> exact List.all_eq_true.1 rfl
  have hword := Takes.word ('(' :: (w.chars ++ ')' :: rest)) hne hname (by simp; decide)
  have hinside := h.2 (')' :: rest) (Token.separates_closing rest)
  have htakes := hword.trans <| (Takes.opening _).trans <| hinside.trans (Takes.closing rest)
  simpa [chars] using htakes

theorem Legible.spells {w : Written} (h : w.Legible A s) : ∃ ts, w.Spells A s ts := by
  induction w with
  | number text value => exact spells_number h
  | position i => exact ⟨_, spells_position h⟩
  | name text i => exact ⟨_, spells_name h⟩
  | binary op l r ihl ihr =>
    obtain ⟨ls, hl⟩ := ihl h.1
    obtain ⟨rs, hr⟩ := ihr h.2
    exact ⟨_, hl.binary op hr⟩
  | call f w ih =>
    obtain ⟨ts, hts⟩ := ih h
    exact ⟨_, hts.call f⟩

/-- Reading the text of a tree gives the tree. -/
theorem parse_render (A : Arithmetic) (s : Scope) (w : Written) (h : w.Legible A s) :
    Expr.parse A s w.render = .ok w.expr := by
  obtain ⟨ts, hderives, htakes⟩ := h.spells
  have hscan := (htakes [] Token.separates_nil).ofChars 0
  rw [List.append_nil] at hscan
  have hrender : Scan.ofString w.render = Scan.ofChars 0 0 w.chars := by
    rw [Scan.ofString, render, String.toList_ofList]
  apply Expr.parse_of_derives
  · rw [hrender, hscan.1]
  · rw [hrender, hscan.2]
    exact .term ts w.expr (.factor ts w.expr hderives)

theorem parse_render_sin_of_sin :
    Expr.parse .whole ⟨["sin", "größe"], 3⟩ "(sin(sin) + (größe * (12.0 - $2)))" =
      .ok (.binary .add (.call .sin (.arg 0)) (.binary .mul (.arg 1)
        (.binary .sub (.num ⟨0x4028000000000000⟩) (.arg 2)))) := by
  have hnumber : (number "12.0" ⟨0x4028000000000000⟩).Legible .whole ⟨["sin", "größe"], 3⟩ :=
    ⟨rfl, ⟨12, 0, 1, true⟩, rfl, rfl⟩
  have hsin : (name "sin" 0).Legible .whole ⟨["sin", "größe"], 3⟩ :=
    ⟨by decide, List.all_eq_true.1 rfl, by decide, rfl, by decide⟩
  have hname : (name "größe" 1).Legible .whole ⟨["sin", "größe"], 3⟩ :=
    ⟨by decide, List.all_eq_true.1 rfl, by decide, rfl, by decide⟩
  have hposition : (position 2).Legible .whole ⟨["sin", "größe"], 3⟩ :=
    (by decide : (2 : UInt16).toNat < 3)
  exact parse_render .whole ⟨["sin", "größe"], 3⟩
    (.binary .add (.call .sin (.name "sin" 0)) (.binary .mul (.name "größe" 1)
      (.binary .sub (.number "12.0" ⟨0x4028000000000000⟩) (.position 2))))
    ⟨hsin, hname, hnumber, hposition⟩

end Written

end Reckoner

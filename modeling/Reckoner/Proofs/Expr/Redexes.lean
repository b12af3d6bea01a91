import Reckoner.Proofs.Expr.Folding
import Reckoner.Proofs.Number.Whole

/-! Folding as a rewriting of trees. A redex is an operator on two numbers or a function of one, each
only if its switch is on. A part that is folded can make a redex of the tree around it; folding goes
from the leaves upwards, so none is left at the end, and a tree without redexes stays as it is. -/
namespace Reckoner.Expr

variable {A : Arithmetic} {o : Options} {e l r : Expr} {op : Operator} {f : Intrinsic}

def parts : Expr → List Expr
  | num v => [num v]
  | arg i => [arg i]
  | binary op l r => binary op l r :: (l.parts ++ r.parts)
  | call f e => call f e :: e.parts

inductive Redex (o : Options) : Expr → Prop
  | binary (h : o.foldConstants = true) (op : Operator) (x y : Double) :
    Redex o (binary op (num x) (num y))
  | call (h : o.foldIntrinsics = true) (f : Intrinsic) (x : Double) : Redex o (call f (num x))

def Irreducible (o : Options) (e : Expr) : Prop := ∀ part ∈ e.parts, ¬ part.Redex o

/-! At one node: a redex becomes its value, and all else stays. -/

theorem foldBinary_cases (A : Arithmetic) (o : Options) (op : Operator) (l r : Expr) :
    ((binary op l r).Redex o ∧ ∃ x y, l = num x ∧ r = num y ∧
      foldBinary A o op l r = num (A.binaryDouble op x y)) ∨
    ¬ (binary op l r).Redex o ∧ foldBinary A o op l r = binary op l r := by
  unfold foldBinary
  split
  next x y =>
    split
    next hon => exact .inl ⟨.binary hon op x y, x, y, rfl, rfl, rfl⟩
    next hoff =>
      refine .inr ⟨fun hredex => ?_, rfl⟩
      cases hredex with
      | binary hon => exact hoff hon
  next hleaves =>
    refine .inr ⟨fun hredex => ?_, rfl⟩
    cases hredex with
    | binary hon op x y => exact hleaves x y rfl rfl

theorem foldCall_cases (A : Arithmetic) (o : Options) (f : Intrinsic) (e : Expr) :
    ((call f e).Redex o ∧ ∃ x, e = num x ∧ foldCall A o f e = num (A.intrinsicDouble f x)) ∨
    ¬ (call f e).Redex o ∧ foldCall A o f e = call f e := by
  unfold foldCall
  split
  next x =>
    split
    next hon => exact .inl ⟨.call hon f x, x, rfl, rfl⟩
    next hoff =>
      refine .inr ⟨fun hredex => ?_, rfl⟩
      cases hredex with
      | call hon => exact hoff hon
  next hleaf =>
    refine .inr ⟨fun hredex => ?_, rfl⟩
    cases hredex with
    | call hon f x => exact hleaf x rfl

theorem evalDouble_foldBinary (env : UInt16 → Double) :
    (foldBinary A o op l r).evalDouble A env =
      A.binaryDouble op (l.evalDouble A env) (r.evalDouble A env) := by
  rcases foldBinary_cases A o op l r with ⟨-, x, y, rfl, rfl, hfold⟩ | ⟨-, hfold⟩
  · simp [hfold, evalDouble]
  · simp [hfold, evalDouble]

theorem evalDouble_foldCall (env : UInt16 → Double) :
    (foldCall A o f e).evalDouble A env = A.intrinsicDouble f (e.evalDouble A env) := by
  rcases foldCall_cases A o f e with ⟨-, x, rfl, hfold⟩ | ⟨-, hfold⟩
  · simp [hfold, evalDouble]
  · simp [hfold, evalDouble]

theorem evalDouble_fold (A : Arithmetic) (o : Options) (env : UInt16 → Double) (e : Expr) :
    (e.fold A o).evalDouble A env = e.evalDouble A env := by
  induction e with
  | num v => rfl
  | arg i => rfl
  | binary op l r ihl ihr => rw [fold, evalDouble_foldBinary, ihl, ihr, evalDouble]
  | call f e ih => rw [fold, evalDouble_foldCall, ih, evalDouble]

theorem irreducible_of_isLeaf (h : e.isLeaf = true) : e.Irreducible o := by
  intro part hpart hredex
  cases e with
  | num v =>
    obtain rfl := List.mem_singleton.1 hpart
    cases hredex
  | arg i =>
    obtain rfl := List.mem_singleton.1 hpart
    cases hredex
  | binary op l r => contradiction
  | call f e => contradiction

theorem irreducible_binary_iff :
    (binary op l r).Irreducible o ↔
      ¬ (binary op l r).Redex o ∧ l.Irreducible o ∧ r.Irreducible o := by
  simp [Irreducible, parts, or_imp, forall_and]

theorem irreducible_call_iff :
    (call f e).Irreducible o ↔ ¬ (call f e).Redex o ∧ e.Irreducible o := by
  simp [Irreducible, parts]

theorem irreducible_fold (A : Arithmetic) (o : Options) (e : Expr) :
    (e.fold A o).Irreducible o := by
  induction e with
  | num v => exact irreducible_of_isLeaf rfl
  | arg i => exact irreducible_of_isLeaf rfl
  | binary op l r ihl ihr =>
    rw [fold]
    rcases foldBinary_cases A o op (l.fold A o) (r.fold A o) with
      ⟨-, x, y, -, -, hfold⟩ | ⟨hroot, hfold⟩
    · rw [hfold]
      exact irreducible_of_isLeaf rfl
    · rw [hfold, irreducible_binary_iff]
      exact ⟨hroot, ihl, ihr⟩
  | call f e ih =>
    rw [fold]
    rcases foldCall_cases A o f (e.fold A o) with ⟨-, x, -, hfold⟩ | ⟨hroot, hfold⟩
    · rw [hfold]
      exact irreducible_of_isLeaf rfl
    · rw [hfold, irreducible_call_iff]
      exact ⟨hroot, ih⟩

theorem Irreducible.fold_eq (A : Arithmetic) (h : e.Irreducible o) : e.fold A o = e := by
  induction e with
  | num v => rfl
  | arg i => rfl
  | binary op l r ihl ihr =>
    obtain ⟨hroot, hl, hr⟩ := irreducible_binary_iff.1 h
    rw [fold, ihl hl, ihr hr]
    rcases foldBinary_cases A o op l r with ⟨hredex, -⟩ | ⟨-, hfold⟩
    · exact absurd hredex hroot
    · exact hfold
  | call f e ih =>
    obtain ⟨hroot, he⟩ := irreducible_call_iff.1 h
    rw [fold, ih he]
    rcases foldCall_cases A o f e with ⟨hredex, -⟩ | ⟨-, hfold⟩
    · exact absurd hredex hroot
    · exact hfold

/-- Folding keeps the value in double precision under every assignment and every occurrence of an
argument, leaves nothing that a switch allows to compute, and has nothing to do the second time. With
both switches off it does nothing the first time either. -/
theorem fold_normalizes (A : Arithmetic) (o : Options) (e : Expr) :
    (∀ env, (e.fold A o).evalDouble A env = e.evalDouble A env) ∧
    (e.fold A o).args = e.args ∧
    (o.foldConstants = true → ∀ op x y, binary op (num x) (num y) ∉ (e.fold A o).parts) ∧
    (o.foldIntrinsics = true → ∀ f x, call f (num x) ∉ (e.fold A o).parts) ∧
    (e.fold A o).fold A o = e.fold A o ∧
    (o.foldConstants = false → o.foldIntrinsics = false → e.fold A o = e) := by
  have hirreducible := irreducible_fold A o e
  refine ⟨fun env => evalDouble_fold A o env e, args_fold A o e, ?_, ?_, hirreducible.fold_eq A, ?_⟩
  · intro hon op x y hmem
    exact hirreducible _ hmem (.binary hon op x y)
  · intro hon f x hmem
    exact hirreducible _ hmem (.call hon f x)
  · intro hconstants hintrinsics
    apply Irreducible.fold_eq
    intro part _ hredex
    cases hredex with
    | binary hon => simp [hconstants] at hon
    | call hon => simp [hintrinsics] at hon

/-- The tree of `sqrt(2*2)+(x-sqrt(9))*(1+1)`, with functions left alone: the product makes no redex
of the root around it, and the other root keeps its operand. -/
theorem fold_normalizes_roots :
    let o : Options := ⟨true, false, true⟩
    let one : Expr := num ⟨0x3ff0000000000000⟩
    let two : Expr := num ⟨0x4000000000000000⟩
    let root : Expr := call .sqrt (num ⟨0x4022000000000000⟩)
    let e := binary .add (call .sqrt (binary .mul two two))
      (binary .mul (binary .sub (arg 0) root) (binary .add one one))
    e.fold .whole o = binary .add (call .sqrt (num ⟨0x4010000000000000⟩))
      (binary .mul (binary .sub (arg 0) root) two) ∧
    (e.fold .whole o).args = [0] ∧
    (∀ op x y, binary op (num x) (num y) ∉ (e.fold .whole o).parts) ∧
    (e.fold .whole o).fold .whole o = e.fold .whole o := by
  intro o one two root e
  obtain ⟨-, hargs, hconstants, -, hagain, -⟩ := fold_normalizes .whole o e
  exact ⟨by decide, hargs, hconstants rfl, hagain⟩

end Reckoner.Expr

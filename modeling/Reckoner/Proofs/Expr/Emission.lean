import Reckoner.Expr.Emit
import Reckoner.Expr.Eval
import Reckoner.Proofs.Code.Agreement
import Reckoner.Proofs.Number.Commuting

/-! The code of a formula, whatever the options: operands first and then the operation, with the
operands of some commutative operators in the other order. Run on any stack it pushes the value of
the formula, with those operands in that order. -/
namespace Reckoner.Expr

/-- Whether an operator takes its operands in the other order: a leaf on the left is applied
directly to what stands on the right. -/
def swaps (fuse : Bool) (op : Operator) (left right : Expr) : Bool :=
  fuse && op.isCommutative && left.isLeaf && !right.isLeaf

def instrs (A : Arithmetic) (fuse : Bool) : Expr → List Instr
  | num v => [.imm (A.narrow v)]
  | arg i => [.arg i]
  | binary op l r =>
    (if swaps fuse op l r then r.instrs A fuse ++ l.instrs A fuse
      else l.instrs A fuse ++ r.instrs A fuse) ++ [.binary op]
  | call f e => e.instrs A fuse ++ [.unary (.call f)]

/-- The value in single precision with operands in the order in which code takes them. -/
def evalFused (A : Arithmetic) (fuse : Bool) (env : UInt16 → Single) : Expr → Single
  | num v => A.narrow v
  | arg i => env i
  | binary op l r =>
    if swaps fuse op l r then A.binarySingle op (r.evalFused A fuse env) (l.evalFused A fuse env)
    else A.binarySingle op (l.evalFused A fuse env) (r.evalFused A fuse env)
  | call f e => A.intrinsicSingle f (e.evalFused A fuse env)

def reach : Expr → Nat
  | num _ => 0
  | arg i => i.toNat + 1
  | binary _ l r => max l.reach r.reach
  | call _ e => e.reach

theorem lt_reach_of_mem_args {e : Expr} {i : UInt16} (h : i ∈ e.args) : i.toNat < e.reach := by
  induction e with
  | num v => simp [args] at h
  | arg j =>
    rw [args, List.mem_singleton] at h
    subst h
    exact Nat.lt_succ_self _
  | binary op l r ihl ihr =>
    rw [args, List.mem_append] at h
    rw [reach]
    rcases h with h | h
    · have := ihl h
      omega
    · have := ihr h
      omega
  | call f e ih => exact ih h

/-! The calls stand for the instructions. -/

def Operand.instr : Operand → Instr
  | imm v => .imm v
  | arg i => .arg i

theorem Operand.flatten_apply (fuse : Bool) (op : Operator) (o : Operand) (k : List Call) :
    Call.flatten (o.apply fuse op k) = o.instr :: .binary op :: Call.flatten k := by
  cases fuse <;> cases o <;> rfl

theorem instrs_of_operand? {A : Arithmetic} {e : Expr} {o : Operand} (fuse : Bool)
    (h : e.operand? A = some o) : e.instrs A fuse = [o.instr] := by
  cases e with
  | num v =>
    cases h
    rfl
  | arg i =>
    cases h
    rfl
  | binary op l r => contradiction
  | call f e => contradiction

theorem isSome_operand? (A : Arithmetic) (e : Expr) : (e.operand? A).isSome = e.isLeaf := by
  cases e <;> rfl

theorem flatten_emit_binary (A : Arithmetic) (fuse : Bool) (op : Operator) (l r : Expr)
    (ihl : ∀ k, Call.flatten (emit A fuse l k) = l.instrs A fuse ++ Call.flatten k)
    (ihr : ∀ k, Call.flatten (emit A fuse r k) = r.instrs A fuse ++ Call.flatten k)
    (k : List Call) :
    Call.flatten (emit A fuse (binary op l r) k) =
      (binary op l r).instrs A fuse ++ Call.flatten k := by
  have hleft := isSome_operand? A l
  have hright := isSome_operand? A r
  rw [emit, instrs]
  cases hr : operand? A r with
  | some o =>
    -- A leaf on the right is applied directly and nothing changes sides.
    have hswaps : swaps fuse op l r = false := by
      rw [hr] at hright
      simp [swaps, ← hright]
    simp [hswaps, ihl, Operand.flatten_apply, instrs_of_operand? fuse hr]
  | none =>
    rw [hr] at hright
    dsimp only
    split
    next o hl =>
      split at hl
      next hfuse =>
        have hswaps : swaps fuse op l r = true := by
          rw [hl] at hleft
          simp [swaps, hfuse, ← hleft, ← hright]
        simp [hswaps, ihr, Operand.flatten_apply, instrs_of_operand? fuse hl]
      next => contradiction
    next hl =>
      have hswaps : swaps fuse op l r = false := by
        split at hl
        next =>
          rw [hl] at hleft
          simp [swaps, ← hleft]
        next hfuse => simp_all [swaps]
      simp [hswaps, ihl, ihr, Call.instrs]

theorem flatten_emit_call (A : Arithmetic) (fuse : Bool) (f : Intrinsic) (e : Expr)
    (ih : ∀ k, Call.flatten (emit A fuse e k) = e.instrs A fuse ++ Call.flatten k) (k : List Call) :
    Call.flatten (emit A fuse (call f e) k) =
      e.instrs A fuse ++ .unary (.call f) :: Call.flatten k := by
  cases e with
  | num v => rfl
  | arg i => cases fuse <;> rfl
  | binary op l r => exact ih (.push (.unary (.call f)) :: k)
  | call g e => exact ih (.push (.unary (.call f)) :: k)

/-- Whether calls are fused or not, and whichever operand comes first, the calls stand for the
instructions of the formula. -/
theorem flatten_emit (A : Arithmetic) (fuse : Bool) (e : Expr) (k : List Call) :
    Call.flatten (emit A fuse e k) = e.instrs A fuse ++ Call.flatten k := by
  induction e generalizing k with
  | num v => rfl
  | arg i => rfl
  | binary op l r ihl ihr => exact flatten_emit_binary A fuse op l r ihl ihr k
  | call f e ih =>
    rw [flatten_emit_call A fuse f e ih, instrs, List.append_assoc]
    rfl

theorem flatten_calls (A : Arithmetic) (o : Options) (e : Expr) :
    Call.flatten (e.calls A o) = e.instrs A o.fuseOperands := by
  rw [calls, flatten_emit, Call.flatten_nil, List.append_nil]

/-! What a gauge takes note of: one more value, and the arguments that the formula reads. How high
the stack rises on the way depends on the shape of the formula. -/

theorem applyAll_instrs (A : Arithmetic) (fuse : Bool) (e : Expr) (g : Gauge) :
    ∃ peak, g.applyAll (e.instrs A fuse) =
      ⟨g.depth + 1, peak, max g.required e.reach, g.shortage⟩ := by
  induction e generalizing g with
  | num v => exact ⟨max g.peak (g.depth + 1), rfl⟩
  | arg i => exact ⟨max g.peak (g.depth + 1), rfl⟩
  | binary op l r ihl ihr =>
    have hop (peak : Nat) (required : Nat) :
        Gauge.apply ⟨g.depth + 1 + 1, peak, required, g.shortage⟩ (.binary op) =
          ⟨g.depth + 1, max peak (g.depth + 1), required, g.shortage⟩ := by
      rw [Gauge.apply_of_admits (by simp [Gauge.admits, Instr.inputs])]
      simp [Instr.inputs, Instr.outputs, Instr.reach]
    rw [instrs, Gauge.applyAll_append]
    cases swaps fuse op l r with
    | true =>
      obtain ⟨peakr, hr⟩ := ihr g
      obtain ⟨peakl, hl⟩ := ihl ⟨g.depth + 1, peakr, max g.required r.reach, g.shortage⟩
      refine ⟨max peakl (g.depth + 1), ?_⟩
      simp only [↓reduceIte, Gauge.applyAll_append, hr, hl, Gauge.applyAll_cons, Gauge.applyAll_nil,
        hop, reach]
      congr 1
      omega
    | false =>
      obtain ⟨peakl, hl⟩ := ihl g
      obtain ⟨peakr, hr⟩ := ihr ⟨g.depth + 1, peakl, max g.required l.reach, g.shortage⟩
      refine ⟨max peakr (g.depth + 1), ?_⟩
      simp only [Bool.false_eq_true, ↓reduceIte, Gauge.applyAll_append, hl, hr, Gauge.applyAll_cons,
        Gauge.applyAll_nil, hop, reach]
      congr 1
      omega
  | call f e ih =>
    obtain ⟨peak, he⟩ := ih g
    refine ⟨max peak (g.depth + 1), ?_⟩
    rw [instrs, Gauge.applyAll_append, he, Gauge.applyAll_cons, Gauge.applyAll_nil,
      Gauge.apply_of_admits (by simp [Gauge.admits, Instr.inputs])]
    simp [Instr.inputs, Instr.outputs, Instr.reach, reach]

theorem ofCalls_calls (A : Arithmetic) (o : Options) (e : Expr) :
    ∃ peak, Gauge.ofCalls (e.calls A o) = ⟨1, peak, e.reach, none⟩ := by
  obtain ⟨peak, h⟩ := e.applyAll_instrs A o.fuseOperands Gauge.start
  refine ⟨peak, ?_⟩
  rw [Gauge.ofCalls, flatten_calls, h]
  simp [Gauge.start]

/-! What running the code pushes. -/

def lookup (args : List Single) (i : UInt16) : Single := args.getD i.toNat .nan

theorem exec_instrs (A : Arithmetic) (fuse : Bool) (args : List Single) (e : Expr)
    (hargs : e.reach ≤ args.length) (stack : List Single) :
    Soft.exec A args (e.instrs A fuse) stack =
      .ok (e.evalFused A fuse (lookup args) :: stack) := by
  induction e generalizing stack with
  | num v => rfl
  | arg i =>
    rw [reach] at hargs
    have hget : args[i.toNat]? = some (lookup args i) := by
      rw [lookup, List.getD_eq_getElem?_getD, List.getElem?_eq_getElem (by omega), Option.getD_some]
    rw [instrs, Soft.exec, Instr.exec, hget]
    rfl
  | binary op l r ihl ihr =>
    rw [reach] at hargs
    rw [instrs, evalFused, Soft.exec_append]
    cases swaps fuse op l r with
    | true =>
      simp only [↓reduceIte, Soft.exec_append, ihl (by omega), ihr (by omega)]
      rfl
    | false =>
      simp only [Bool.false_eq_true, ↓reduceIte, Soft.exec_append, ihl (by omega), ihr (by omega)]
      rfl
  | call f e ih =>
    rw [instrs, Soft.exec_append, ih hargs]
    rfl

theorem evalFused_false (A : Arithmetic) (env : UInt16 → Single) (e : Expr) :
    e.evalFused A false env = e.evalSingle A env := by
  induction e with
  | num v => rfl
  | arg i => rfl
  | binary op l r ihl ihr =>
    have hswaps : ¬ swaps false op l r = true := by simp [swaps]
    rw [evalFused, if_neg hswaps, ihl, ihr, evalSingle]
  | call f e ih => rw [evalFused, ih, evalSingle]

theorem evalFused_same {A : Arithmetic} {same : Single → Single → Prop} (h : A.CommutesUpTo same)
    (fuse : Bool) (env : UInt16 → Single) (e : Expr) :
    same (e.evalFused A fuse env) (e.evalSingle A env) := by
  induction e with
  | num v => exact h.equivalence.refl _
  | arg i => exact h.equivalence.refl _
  | binary op l r ihl ihr =>
    rw [evalFused, evalSingle]
    split
    next hswaps =>
      have hop : op.isCommutative = true := by
        simp only [swaps, Bool.and_eq_true] at hswaps
        exact hswaps.1.1.2
      exact h.equivalence.trans (h.swap op hop _ _) (h.binary op ihl ihr)
    next => exact h.binary op ihl ihr
  | call f e ih => exact h.call f ih

end Reckoner.Expr

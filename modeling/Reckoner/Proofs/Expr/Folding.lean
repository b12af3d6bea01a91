import Reckoner.Expr.Fold
import Reckoner.Proofs.Expr.Emission

/-! Folding everything: a part without arguments becomes one number, and a part with arguments keeps
its operation. So single precision begins exactly where arguments come in. -/
namespace Reckoner.Expr

variable {A : Arithmetic} {o : Options} {e l r : Expr} {op : Operator} {f : Intrinsic}

theorem reach_le_iff {n : Nat} : e.reach ≤ n ↔ ∀ i ∈ e.args, i.toNat < n := by
  induction e with
  | num v => simp [reach, args]
  | arg i =>
    rw [reach, args, List.forall_mem_singleton]
    exact Nat.succ_le_iff
  | binary op l r ihl ihr =>
    rw [reach, args, Nat.max_le, ihl, ihr]
    simp only [List.mem_append, or_imp, forall_and]
  | call f e ih => rw [reach, args, ih]

theorem args_foldBinary : (foldBinary A o op l r).args = l.args ++ r.args := by
  unfold foldBinary
  split
  next => split <;> rfl
  next => rfl

theorem args_foldCall : (foldCall A o f e).args = e.args := by
  unfold foldCall
  split
  next => split <;> rfl
  next => rfl

@[simp] theorem args_fold (A : Arithmetic) (o : Options) (e : Expr) : (e.fold A o).args = e.args := by
  induction e with
  | num v => rfl
  | arg i => rfl
  | binary op l r ihl ihr => rw [fold, args_foldBinary, ihl, ihr, args]
  | call f e ih => rw [fold, args_foldCall, ih, args]

theorem reach_fold (A : Arithmetic) (o : Options) (e : Expr) : (e.fold A o).reach = e.reach := by
  apply Nat.le_antisymm
  · exact reach_le_iff.2 (by rw [args_fold]; exact reach_le_iff.1 (Nat.le_refl e.reach))
  · exact reach_le_iff.2 (by rw [← args_fold A o e]; exact reach_le_iff.1 (Nat.le_refl _))

theorem fold_binary_of_args (h : (binary op l r).args ≠ []) :
    (binary op l r).fold A o = binary op (l.fold A o) (r.fold A o) := by
  rw [args, ← args_fold A o l, ← args_fold A o r] at h
  rw [fold, foldBinary]
  intro x y hx hy
  simp [hx, hy, args] at h

theorem fold_call_of_args (h : (call f e).args ≠ []) :
    (call f e).fold A o = call f (e.fold A o) := by
  rw [args, ← args_fold A o e] at h
  rw [fold, foldCall]
  intro x hx
  simp [hx, args] at h

theorem fold_of_args_eq_nil (h : e.args = []) (env : UInt16 → Double) :
    e.fold A .optimized = num (e.evalDouble A env) := by
  induction e with
  | num v => rfl
  | arg i => contradiction
  | binary op l r ihl ihr =>
    obtain ⟨hl, hr⟩ := List.append_eq_nil_iff.1 h
    rw [fold, ihl hl, ihr hr]
    rfl
  | call f e ih =>
    rw [fold, ih h]
    rfl

/-! The parts that the mixed value computes in double precision are those without arguments. -/

theorem constant?_of_args_eq_nil (h : e.args = []) (env : UInt16 → Double) :
    e.constant? A = some (e.evalDouble A env) := by
  induction e with
  | num v => rfl
  | arg i => contradiction
  | binary op l r ihl ihr =>
    obtain ⟨hl, hr⟩ := List.append_eq_nil_iff.1 h
    rw [constant?, ihl hl, ihr hr]
    rfl
  | call f e ih =>
    rw [constant?, ih h]
    rfl

theorem args_eq_nil_of_constant? {v : Double} (h : e.constant? A = some v) : e.args = [] := by
  induction e generalizing v with
  | num v => rfl
  | arg i => contradiction
  | binary op l r ihl ihr =>
    simp only [constant?, Option.bind_eq_bind, Option.bind_eq_some_iff] at h
    obtain ⟨x, hx, y, hy, -⟩ := h
    rw [args, ihl hx, ihr hy, List.append_nil]
  | call f e ih =>
    simp only [constant?, Option.bind_eq_bind, Option.bind_eq_some_iff] at h
    obtain ⟨x, hx, -⟩ := h
    exact ih hx

theorem constant?_of_args (h : e.args ≠ []) : e.constant? A = none := by
  cases hc : e.constant? A with
  | none => rfl
  | some v => exact absurd (args_eq_nil_of_constant? hc) h

theorem evalMixed_of_args_eq_nil (h : e.args = []) (env : UInt16 → Single)
    (env' : UInt16 → Double) : e.evalMixed A env = A.narrow (e.evalDouble A env') := by
  cases e with
  | num v => rfl
  | arg i => contradiction
  | binary op l r => rw [evalMixed, constant?_of_args_eq_nil h env']
  | call f e => rw [evalMixed, constant?_of_args_eq_nil h env']

theorem evalMixed_binary (h : (binary op l r).args ≠ []) (env : UInt16 → Single) :
    (binary op l r).evalMixed A env =
      A.binarySingle op (l.evalMixed A env) (r.evalMixed A env) := by
  rw [evalMixed, constant?_of_args h]

theorem evalMixed_call (h : (call f e).args ≠ []) (env : UInt16 → Single) :
    (call f e).evalMixed A env = A.intrinsicSingle f (e.evalMixed A env) := by
  rw [evalMixed, constant?_of_args h]

theorem evalSingle_fold_of_args_eq_nil (h : e.args = []) (env : UInt16 → Single) :
    (e.fold A .optimized).evalSingle A env = e.evalMixed A env := by
  rw [fold_of_args_eq_nil h fun _ => ⟨0⟩, evalMixed_of_args_eq_nil h env fun _ => ⟨0⟩, evalSingle]

/-- The folded formula has in single precision the value that the formula has in mixed precision. -/
theorem evalSingle_fold (A : Arithmetic) (env : UInt16 → Single) (e : Expr) :
    (e.fold A .optimized).evalSingle A env = e.evalMixed A env := by
  induction e with
  | num v => rfl
  | arg i => rfl
  | binary op l r ihl ihr =>
    by_cases hargs : (binary op l r).args = []
    · exact evalSingle_fold_of_args_eq_nil hargs env
    · rw [fold_binary_of_args hargs, evalMixed_binary hargs, evalSingle, ihl, ihr]
  | call f e ih =>
    by_cases hargs : (call f e).args = []
    · exact evalSingle_fold_of_args_eq_nil hargs env
    · rw [fold_call_of_args hargs, evalMixed_call hargs, evalSingle, ih]

end Reckoner.Expr

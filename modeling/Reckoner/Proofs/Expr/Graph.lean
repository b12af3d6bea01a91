import Reckoner.Native.Program
import Reckoner.Proofs.Expr.Emission

/-! The graph of a formula. The native builder never runs anything; while it takes the code of a
formula it puts together the values, and the one that is left is the graph of the formula. -/
namespace Reckoner

namespace Native.Builder

theorem foldl_call (b : Builder) (calls : List Call) :
    calls.foldl call b = (Call.flatten calls).foldl push b := by
  rw [Call.flatten, List.foldl_flatMap]
  rfl

theorem gauge_foldl_push (b : Builder) (instrs : List Instr) :
    (instrs.foldl push b).gauge = b.gauge.applyAll instrs := by
  induction instrs generalizing b with
  | nil => rfl
  | cons i rest ih => exact ih (b.push i)

variable {b : Builder} {x y : Value} {stack : List Value}

theorem stack_push_binary (h : b.stack = y :: x :: stack) (op : Operator) :
    (b.push (.binary op)).stack = .binary op x y :: stack := by
  obtain ⟨gauge, _⟩ := b
  subst h
  rfl

theorem stack_push_call (h : b.stack = x :: stack) (f : Intrinsic) :
    (b.push (.unary (.call f))).stack = .call f x :: stack := by
  obtain ⟨gauge, _⟩ := b
  subst h
  rfl

end Native.Builder

namespace Expr

def graph (A : Arithmetic) (fuse : Bool) : Expr → Native.Value
  | num v => .imm (A.narrow v)
  | arg i => .arg i
  | binary op l r =>
    if swaps fuse op l r then .binary op (r.graph A fuse) (l.graph A fuse)
    else .binary op (l.graph A fuse) (r.graph A fuse)
  | call f e => .call f (e.graph A fuse)

theorem reach_graph (A : Arithmetic) (fuse : Bool) (e : Expr) :
    (e.graph A fuse).reach = e.reach := by
  induction e with
  | num v => rfl
  | arg i => rfl
  | binary op l r ihl ihr =>
    rw [graph, reach]
    split
    next => rw [Native.Value.reach, ihl, ihr, Nat.max_comm]
    next => rw [Native.Value.reach, ihl, ihr]
  | call f e ih => rw [graph, reach, Native.Value.reach, ih]

theorem eval_graph {A : Arithmetic} (h : A.RootsAgree) (fuse : Bool) (args : List Single) (e : Expr) :
    (e.graph A fuse).eval A args = e.evalFused A fuse (lookup args) := by
  induction e with
  | num v => rfl
  | arg i => rw [graph, Native.Value.eval, evalFused, lookup, List.getD_eq_getElem?_getD]
  | binary op l r ihl ihr =>
    rw [graph, evalFused]
    split
    next => rw [Native.Value.eval, ihl, ihr]
    next => rw [Native.Value.eval, ihl, ihr]
  | call f e ih => rw [graph, evalFused, Native.Value.eval, ih, h.intrinsicNative]

theorem stack_foldl_push_instrs (A : Arithmetic) (fuse : Bool) (e : Expr) (b : Native.Builder) :
    ((e.instrs A fuse).foldl Native.Builder.push b).stack = e.graph A fuse :: b.stack := by
  induction e generalizing b with
  | num v => rfl
  | arg i => rfl
  | binary op l r ihl ihr =>
    rw [instrs, graph, List.foldl_append]
    split
    next =>
      refine Native.Builder.stack_push_binary ?_ op
      rw [List.foldl_append, ihl, ihr]
    next =>
      refine Native.Builder.stack_push_binary ?_ op
      rw [List.foldl_append, ihr, ihl]
  | call f e ih =>
    rw [instrs, graph, List.foldl_append]
    exact Native.Builder.stack_push_call (ih b) f

end Expr

end Reckoner

import Reckoner.Number.Arithmetic

/-!
Instructions of the stack machine and what each does to a stack of singles.
-/
namespace Reckoner

inductive Unary where
  | call (f : Intrinsic)
  | pop
  deriving DecidableEq, Repr

def Unary.name : Unary → String
  | call f => f.name
  | pop => "pop"

def Unary.ofName? : String → Option Unary
  | "pop" => some .pop
  | s => (Intrinsic.ofName? s).map .call

/-- One instruction. Immediates are patterns, so that every pattern survives encoding. -/
inductive Instr where
  | arg (index : UInt16)
  | imm (value : Single)
  | unary (u : Unary)
  | binary (op : Operator)
  deriving DecidableEq, Repr

namespace Instr

def name : Instr → String
  | arg _ => "arg"
  | imm _ => "imm"
  | unary u => u.name
  | binary op => op.name

def inputs : Instr → Nat
  | arg _ | imm _ => 0
  | unary _ => 1
  | binary _ => 2

def outputs : Instr → Nat
  | unary .pop => 0
  | arg _ | imm _ | unary (.call _) | binary _ => 1

def reach : Instr → Nat
  | arg i => i.toNat + 1
  | imm _ | unary _ | binary _ => 0

inductive Fault where
  | underflow
  | missing (index : UInt16)
  deriving DecidableEq, Repr

/-- Runs one instruction; the head of the list is the top of the stack, and the second operand of
an operator is on top. -/
def exec (A : Arithmetic) (args : List Single) : Instr → List Single → Except Fault (List Single)
  | arg i, stack =>
    match args[i.toNat]? with
    | some x => .ok (x :: stack)
    | none => .error (.missing i)
  | imm v, stack => .ok (v :: stack)
  | unary (.call f), x :: stack => .ok (A.intrinsicSingle f x :: stack)
  | unary .pop, _ :: stack => .ok stack
  | binary op, y :: x :: stack => .ok (A.binarySingle op x y :: stack)
  | unary _, [] | binary _, [_] | binary _, [] => .error .underflow

end Instr

end Reckoner

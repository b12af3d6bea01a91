import Reckoner.Code.Call
import Reckoner.Code.Gauge

/-!
Code kept as a list of instructions.
-/
namespace Reckoner.Soft

structure Program where
  code : List Instr
  required : Nat
  deriving DecidableEq, Repr

/-- Runs one instruction; without its operands it takes those that are there and goes on. -/
def step (A : Arithmetic) (args : List Single) : List Single → Instr → List Single
  | stack, .arg i => args[i.toNat]?.getD .nan :: stack
  | stack, .imm v => v :: stack
  | x :: stack, .unary (.call f) => A.intrinsicSingle f x :: stack
  | _ :: stack, .unary .pop => stack
  | y :: x :: stack, .binary op => A.binarySingle op x y :: stack
  | [], .unary _ | [_], .binary _ | [], .binary _ => []

def Program.run (A : Arithmetic) (args : List Single) (p : Program) : Single :=
  (p.code.foldl (step A args) []).head?.getD .nan

structure Builder where
  gauge : Gauge
  code : Array Instr
  deriving DecidableEq, Repr

namespace Builder

def empty : Builder := ⟨.start, #[]⟩

def push (b : Builder) (i : Instr) : Builder :=
  ⟨b.gauge.apply i, if b.gauge.admits i then b.code.push i else b.code⟩

def call (b : Builder) (c : Call) : Builder := c.instrs.foldl push b

def finish (b : Builder) : Except Error Program :=
  match b.gauge.fault? with
  | some e => .error e
  | none => .ok ⟨b.code.toList, b.gauge.required⟩

end Builder

end Reckoner.Soft

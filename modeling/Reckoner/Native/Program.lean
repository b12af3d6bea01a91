import Reckoner.Code.Call
import Reckoner.Code.Gauge

/-!
Code kept as the graph of its values, ready to be placed in a page. A value is known by the
operation that makes it; the stack holds values only while code is built.
-/
namespace Reckoner.Native

inductive Value where
  | imm (value : Single)
  | arg (index : UInt16)
  | binary (op : Operator) (left right : Value)
  | call (f : Intrinsic) (operand : Value)
  deriving DecidableEq, Repr

def Value.eval (A : Arithmetic) (args : List Single) : Value → Single
  | imm v => v
  | arg i => args[i.toNat]?.getD .nan
  | binary op l r => A.binarySingle op (l.eval A args) (r.eval A args)
  | call f x => A.intrinsicNative f (x.eval A args)

def Value.reach : Value → Nat
  | imm _ => 0
  | arg i => i.toNat + 1
  | binary _ l r => max l.reach r.reach
  | call _ x => x.reach

structure Program where
  result : Value
  required : Nat
  deriving DecidableEq, Repr

namespace Program

def run (A : Arithmetic) (args : List Single) (p : Program) : Single := p.result.eval A args

end Program

/-- A kind of machine. Nothing is known of it but what is asked for by name. -/
structure Target where
  generate : Program → Except String (List UInt8)
  /-- What a call of the code at the front of these bytes gives. -/
  execute : List UInt8 → List Single → Single

namespace Target

variable (t : Target)

/-- Code is all of the function: what a call gives does not depend on what stands behind it. -/
def SelfContained : Prop :=
  ∀ p code, t.generate p = .ok code → ∀ rest args, t.execute (code ++ rest) args = t.execute code args

/-- Code computes its program on all arguments that the program reads. -/
def Faithful (A : Arithmetic) : Prop :=
  ∀ p code, t.generate p = .ok code → ∀ rest args, p.result.reach ≤ args.length →
    t.execute (code ++ rest) args = p.run A args

end Target

structure Builder where
  gauge : Gauge
  stack : List Value
  deriving DecidableEq, Repr

namespace Builder

def empty : Builder := ⟨.start, []⟩

def push (b : Builder) (i : Instr) : Builder :=
  ⟨b.gauge.apply i,
    match i, b.stack with
    | .imm v, stack => .imm v :: stack
    | .arg i, stack => .arg i :: stack
    | .unary (.call f), x :: stack => .call f x :: stack
    | .unary .pop, _ :: stack => stack
    | .binary op, y :: x :: stack => .binary op x y :: stack
    | _, stack => stack⟩

def call (b : Builder) (c : Call) : Builder := c.instrs.foldl push b

def finish (b : Builder) : Except Error Program :=
  match b.gauge.fault?, b.stack with
  | some e, _ => .error e
  | none, result :: _ => .ok ⟨result, b.gauge.required⟩
  | none, [] => .error (.internal (.note "finalize with an empty stack"))

end Builder

end Reckoner.Native

import Reckoner.Bytecode.Run
import Reckoner.Bytecode.Shape
import Reckoner.Code.Call
import Reckoner.Code.Gauge

/-!
Code kept as a checked stream.
-/
namespace Reckoner.Bytecode

structure Program where
  stream : Stream
  shape : Shape
  deriving DecidableEq, Repr

namespace Program

def ofStream (s : Stream) : Except StreamError Program :=
  match s.check with
  | .ok shape => .ok ⟨s, shape⟩
  | .error e => .error e

def run (A : Arithmetic) (args : List Single) (p : Program) : Except RunError Single :=
  p.stream.run A args

end Program

structure Builder where
  gauge : Gauge
  code : Array Instr
  deriving DecidableEq, Repr

namespace Builder

def empty : Builder := ⟨.start, #[]⟩

def push (b : Builder) (i : Instr) : Builder :=
  ⟨b.gauge.apply i, if b.gauge.admits i then b.code.push i else b.code⟩

/-- Appends an operator with its operand, or neither if the operator lacks the other one. -/
def pushFused (b : Builder) (operand : Instr) (op : Operator) : Builder :=
  let gauge := b.gauge.apply operand
  ⟨gauge.apply (.binary op),
    if gauge.admits (.binary op) then (b.code.push operand).push (.binary op) else b.code⟩

def call (b : Builder) : Call → Builder
  | .push i => b.push i
  | .binaryArg op i => b.pushFused (.arg i) op
  | .binaryImm op v => b.pushFused (.imm v) op
  | .callArg f i => ⟨b.gauge.apply (.arg i), (b.code.push (.arg i)).push (.unary (.call f))⟩

def finish (b : Builder) : Except Error Program :=
  match b.gauge.fault? with
  | some e => .error e
  | none => .ok ⟨.ofInstrs b.code.toList, ⟨b.gauge.peak, b.gauge.required⟩⟩

end Builder

end Reckoner.Bytecode

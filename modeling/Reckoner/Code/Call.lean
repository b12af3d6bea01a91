import Reckoner.Code.Instr

/-!
The calls by which code is handed to a builder. A fused call takes one operand directly; it stands
for pushing the operand and then the operation.
-/
namespace Reckoner

inductive Call where
  | push (i : Instr)
  | binaryArg (op : Operator) (index : UInt16)
  | binaryImm (op : Operator) (value : Single)
  | callArg (f : Intrinsic) (index : UInt16)
  deriving DecidableEq, Repr

def Call.instrs : Call → List Instr
  | push i => [i]
  | binaryArg op i => [.arg i, .binary op]
  | binaryImm op v => [.imm v, .binary op]
  | callArg f i => [.arg i, .unary (.call f)]

end Reckoner

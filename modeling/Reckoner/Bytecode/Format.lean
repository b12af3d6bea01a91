import Reckoner.Bytecode.Word
import Reckoner.Code.Instr

/-!
The encoding of instructions. The low half of the first byte is the class of the instruction; the
high half tells operations of one class apart. Arguments and immediates are followed by their
operand, least significant byte first.
-/
namespace Reckoner

inductive OpClass where
  | argument
  | immediate
  | unary
  | binary
  deriving DecidableEq, Repr

namespace OpClass

def code : OpClass → UInt8
  | argument => 0
  | immediate => 1
  | unary => 2
  | binary => 3

def ofCode? (n : UInt8) : Option OpClass :=
  if n = 0 then some argument
  else if n = 1 then some immediate
  else if n = 2 then some unary
  else if n = 3 then some binary
  else none

@[simp] theorem ofCode?_code (c : OpClass) : ofCode? c.code = some c := by
  cases c <;> rfl

end OpClass

namespace Unary

def code : Unary → UInt8
  | call .sin => 0
  | call .cos => 1
  | call .sqrt => 2
  | pop => 3

def ofCode? (n : UInt8) : Option Unary :=
  if n = 0 then some (call .sin)
  else if n = 1 then some (call .cos)
  else if n = 2 then some (call .sqrt)
  else if n = 3 then some pop
  else none

@[simp] theorem ofCode?_code (u : Unary) : ofCode? u.code = some u := by
  rcases u with f | _
  · cases f <;> rfl
  · rfl

end Unary

namespace Operator

def code : Operator → UInt8
  | add => 0
  | sub => 1
  | div => 2
  | mul => 3

def ofCode? (n : UInt8) : Option Operator :=
  if n = 0 then some add
  else if n = 1 then some sub
  else if n = 2 then some div
  else if n = 3 then some mul
  else none

@[simp] theorem ofCode?_code (op : Operator) : ofCode? op.code = some op := by
  cases op <;> rfl

end Operator

namespace Instr

def encode : Instr → List UInt8
  | arg i => OpClass.argument.code :: Bytecode.toBytes 2 i.toNat
  | imm v => OpClass.immediate.code :: Bytecode.toBytes 4 v.bits.toNat
  | unary u => [OpClass.unary.code + 16 * u.code]
  | binary op => [OpClass.binary.code + 16 * op.code]

def size : Instr → Nat
  | arg _ => 3
  | imm _ => 5
  | unary _ | binary _ => 1

@[simp] theorem length_encode (i : Instr) : i.encode.length = i.size := by
  cases i <;> simp [encode, size]

end Instr

end Reckoner

import Reckoner.Bytecode.Stream
import Reckoner.Native.Program

/-!
A machine whose code is a stream of instructions with a mark at its end. It finds the values of a
program again and computes them.
-/
namespace Reckoner.Native

def Value.emit : Value → List Instr → List Instr
  | imm v, rest => .imm v :: rest
  | arg i, rest => .arg i :: rest
  | binary op l r, rest => l.emit (r.emit (.binary op :: rest))
  | call f x, rest => x.emit (.unary (.call f) :: rest)

namespace Target

def endMark : UInt8 := 0xff

/-- The stream of a program with the mark behind it, filled up to a least number of bytes. -/
def streamCode (least : Nat) (p : Program) : List UInt8 :=
  let stream := (Stream.ofInstrs (p.result.emit [])).bytes
  stream ++ endMark :: List.replicate (least - (stream.length + 1)) 0

def streamed (A : Arithmetic) (least : Nat) : Target where
  generate p := .ok (streamCode least p)
  execute bytes args :=
    let instrs := (Stream.decode ⟨bytes⟩).instrs.map Prod.snd
    match (instrs.foldl Builder.push .empty).stack with
    | result :: _ => result.eval A args
    | [] => .nan

end Target

end Reckoner.Native

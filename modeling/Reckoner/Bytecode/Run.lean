import Reckoner.Bytecode.Stream

/-!
Running a stream, well formed or not.
-/
namespace Reckoner

inductive RunError where
  | malformed (error : StreamError)
  | missing (index : UInt16)
  deriving DecidableEq, Repr

def RunError.ofFault (offset : Nat) : Instr.Fault → RunError
  | .underflow => .malformed (.underflow offset)
  | .missing i => .missing i

namespace Stream

def runFrom (A : Arithmetic) (args : List Single) :
    List (Nat × Instr) → List Single → Except RunError (List Single)
  | [], stack => .ok stack
  | (offset, i) :: rest, stack =>
    match i.exec A args stack with
    | .ok stack => runFrom A args rest stack
    | .error fault => .error (.ofFault offset fault)

/-- Runs the stream up to the first defect; the result is the only value that is left. -/
def run (A : Arithmetic) (args : List Single) (s : Stream) : Except RunError Single :=
  let decoded := s.decode
  match runFrom A args decoded.instrs [] with
  | .error e => .error e
  | .ok stack =>
    match decoded.fault, stack with
    | some e, _ => .error (.malformed e)
    | none, [x] => .ok x
    | none, stack => .error (.malformed (.finalDepth stack.length))

end Stream

end Reckoner

import Reckoner.Bytecode.Stream

/-!
The stack discipline of a stream, checked without running it.
-/
namespace Reckoner

structure Shape where
  maxDepth : Nat
  required : Nat
  deriving DecidableEq, Repr

structure Shape.Walk where
  depth : Nat
  shape : Shape
  deriving DecidableEq, Repr

namespace Shape.Walk

def start : Walk := ⟨0, ⟨0, 0⟩⟩

def moveTo (w : Walk) (depth : Nat) : Walk :=
  ⟨depth, { w.shape with maxDepth := max w.shape.maxDepth depth }⟩

def step (w : Walk) (offset : Nat) : Instr → Except StreamError Walk
  | .arg i =>
    .ok (Walk.moveTo ⟨w.depth, { w.shape with required := max w.shape.required (i.toNat + 1) }⟩
      (w.depth + 1))
  | .imm _ => .ok (w.moveTo (w.depth + 1))
  | .unary u =>
    if w.depth = 0 then .error (.underflow offset)
    else
      match u with
      | .call _ => .ok (w.moveTo w.depth)
      | .pop => .ok (w.moveTo (w.depth - 1))
  | .binary _ => if w.depth < 2 then .error (.underflow offset) else .ok (w.moveTo (w.depth - 1))

def run : Walk → List (Nat × Instr) → Except StreamError Walk
  | w, [] => .ok w
  | w, (offset, i) :: rest =>
    match w.step offset i with
    | .ok w => run w rest
    | .error e => .error e

end Shape.Walk

/-- The shape of a stream that can be decoded, never lacks operands and leaves exactly one value;
otherwise the first defect. -/
def Stream.check (s : Stream) : Except StreamError Shape :=
  let decoded := s.decode
  match Shape.Walk.start.run decoded.instrs with
  | .error e => .error e
  | .ok w =>
    match decoded.fault with
    | some e => .error e
    | none => if w.depth = 1 then .ok w.shape else .error (.finalDepth w.depth)

def Stream.ofBytes (bytes : List UInt8) : Except StreamError Stream :=
  match Stream.check ⟨bytes⟩ with
  | .ok _ => .ok ⟨bytes⟩
  | .error e => .error e

end Reckoner

import Reckoner.Bytecode.Run

/-!
The interpreter of streams as a machine that decodes while it runs: for each instruction it reads the
class, then the operand or the operation, and then it turns to the stack.
-/
namespace Reckoner

structure Machine where
  cursor : Cursor
  stack : List Single
  deriving DecidableEq, Repr

namespace Machine

def start (s : Stream) : Machine := ⟨s.cursor, []⟩

def underflow (m : Machine) : RunError := .malformed (.underflow m.cursor.offset)

def step (A : Arithmetic) (args : List Single) (m : Machine) : Except RunError (Option Machine) :=
  match m.cursor.opClass with
  | .error e => .error (.malformed e)
  | .ok none => .ok none
  | .ok (some .argument) =>
    match m.cursor.readArg with
    | .error e => .error (.malformed e)
    | .ok (i, next) =>
      match args[i.toNat]? with
      | some x => .ok (some ⟨next, x :: m.stack⟩)
      | none => .error (.missing i)
  | .ok (some .immediate) =>
    match m.cursor.readImm with
    | .error e => .error (.malformed e)
    | .ok (v, next) => .ok (some ⟨next, v :: m.stack⟩)
  | .ok (some .unary) =>
    match m.cursor.readUnary, m.stack with
    | .error e, _ => .error (.malformed e)
    | .ok (.pop, next), _ :: below => .ok (some ⟨next, below⟩)
    | .ok (.call f, next), x :: below => .ok (some ⟨next, A.intrinsicSingle f x :: below⟩)
    | .ok _, [] => .error m.underflow
  | .ok (some .binary) =>
    match m.cursor.readBinary, m.stack with
    | .error e, _ => .error (.malformed e)
    | .ok (op, next), y :: x :: below => .ok (some ⟨next, A.binarySingle op x y :: below⟩)
    | .ok _, _ => .error m.underflow

def result (m : Machine) : Except RunError Single :=
  match m.stack with
  | [x] => .ok x
  | stack => .error (.malformed (.finalDepth stack.length))

/-- `Halts A args m r`: the machine runs to the end of the stream or to an error, and `r` is the
result. -/
inductive Halts (A : Arithmetic) (args : List Single) : Machine → Except RunError Single → Prop
  | finished {m : Machine} (hstep : m.step A args = .ok none) : Halts A args m m.result
  | failed {m : Machine} {e : RunError} (hstep : m.step A args = .error e) :
    Halts A args m (.error e)
  | step {m next : Machine} {r : Except RunError Single} (hstep : m.step A args = .ok (some next))
    (hrest : Halts A args next r) : Halts A args m r

inductive Reaches (A : Arithmetic) (args : List Single) : Machine → Machine → Prop
  | refl (m : Machine) : Reaches A args m m
  | step {m next last : Machine} (hstep : m.step A args = .ok (some next))
    (hrest : Reaches A args next last) : Reaches A args m last

/-- `Peak A args m height`: no more than `height` values are ever on the stack, and at some time as
many are. -/
structure Peak (A : Arithmetic) (args : List Single) (m : Machine) (height : Nat) : Prop where
  bound : ∀ n, Reaches A args m n → n.stack.length ≤ height
  attained : ∃ n, Reaches A args m n ∧ n.stack.length = height

end Machine

end Reckoner

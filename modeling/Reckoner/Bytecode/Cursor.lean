import Reckoner.Bytecode.Format
import Reckoner.Error

/-!
Reading instructions off encoded bytes. A cursor is the offset in the stream and the bytes from
there on; a reader that fails leaves the cursor where it is.
-/
namespace Reckoner

structure Cursor where
  offset : Nat
  rest : List UInt8
  deriving DecidableEq, Repr

namespace Cursor

/-- Moves over a number of bytes, possibly beyond the end. -/
def advance (c : Cursor) (n : Nat) : Cursor := ⟨c.offset + n, c.rest.drop n⟩

def opClass (c : Cursor) : Except StreamError (Option OpClass) :=
  match c.rest with
  | [] => .ok none
  | b :: _ =>
    match OpClass.ofCode? (b % 16) with
    | some k => .ok (some k)
    | none => .error (.unknownClass (b % 16) c.offset)

def subtype (c : Cursor) : UInt8 :=
  match c.rest with
  | [] => 0
  | b :: _ => b / 16

def payload (c : Cursor) (n : Nat) : Except StreamError (List UInt8) :=
  let bytes := (c.rest.drop 1).take n
  if bytes.length < n then .error (.truncated c.offset n bytes.length) else .ok bytes

def readArg (c : Cursor) : Except StreamError (UInt16 × Cursor) :=
  match c.payload 2 with
  | .ok bytes => .ok ((Bytecode.ofBytes bytes).toUInt16, c.advance 3)
  | .error e => .error e

def readImm (c : Cursor) : Except StreamError (Single × Cursor) :=
  match c.payload 4 with
  | .ok bytes => .ok (⟨(Bytecode.ofBytes bytes).toUInt32⟩, c.advance 5)
  | .error e => .error e

def readUnary (c : Cursor) : Except StreamError (Unary × Cursor) :=
  match Unary.ofCode? c.subtype with
  | some u => .ok (u, c.advance 1)
  | none => .error (.unknownSubtype .unary c.subtype c.offset)

def readBinary (c : Cursor) : Except StreamError (Operator × Cursor) :=
  match Operator.ofCode? c.subtype with
  | some op => .ok (op, c.advance 1)
  | none => .error (.unknownSubtype .binary c.subtype c.offset)

def read (c : Cursor) : Except StreamError (Option (Instr × Cursor)) :=
  match c.opClass with
  | .error e => .error e
  | .ok none => .ok none
  | .ok (some .argument) => c.readArg.map fun (i, c) => some (.arg i, c)
  | .ok (some .immediate) => c.readImm.map fun (v, c) => some (.imm v, c)
  | .ok (some .unary) => c.readUnary.map fun (u, c) => some (.unary u, c)
  | .ok (some .binary) => c.readBinary.map fun (op, c) => some (.binary op, c)

/-- The next instruction or error, and the cursor behind it. Nothing is read after an error. -/
def next (c : Cursor) : Option (Except StreamError Instr) × Cursor :=
  match c.read with
  | .ok none => (none, c)
  | .ok (some (i, c)) => (some (.ok i), c)
  | .error e => (some (.error e), c.advance c.rest.length)

end Cursor

end Reckoner

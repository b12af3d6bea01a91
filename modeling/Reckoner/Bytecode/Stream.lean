import Reckoner.Bytecode.Cursor

/-!
Streams of encoded instructions: writing, and reading a whole stream at once.
-/
namespace Reckoner

structure Stream where
  bytes : List UInt8
  deriving DecidableEq, Repr

/-- The instructions of a stream with their offsets, up to `stop`, which is the end of the stream
unless decoding failed there. -/
structure Decoded where
  instrs : List (Nat × Instr)
  stop : Nat
  fault : Option StreamError
  deriving DecidableEq, Repr

namespace Decoded

def cons (offset : Nat) (i : Instr) (d : Decoded) : Decoded :=
  { d with instrs := (offset, i) :: d.instrs }

/-- Decodes bytes that start at `offset`, after leaving out `skip` bytes that belong to the
instruction before. -/
def ofBytes : (skip offset : Nat) → List UInt8 → Decoded
  | _, offset, [] => ⟨[], offset, none⟩
  | skip + 1, offset, _ :: bs => ofBytes skip (offset + 1) bs
  | 0, offset, b :: bs =>
    match Cursor.read ⟨offset, b :: bs⟩ with
    | .ok (some (i, _)) => (ofBytes (i.size - 1) (offset + 1) bs).cons offset i
    | .ok none => ⟨[], offset, none⟩
    | .error e => ⟨[], offset, some e⟩

end Decoded

namespace Stream

def empty : Stream := ⟨[]⟩

def length (s : Stream) : Nat := s.bytes.length

def write (s : Stream) (i : Instr) : Stream := ⟨s.bytes ++ i.encode⟩

def ofInstrs (instrs : List Instr) : Stream := ⟨instrs.flatMap Instr.encode⟩

def cursor (s : Stream) : Cursor := ⟨0, s.bytes⟩

def decode (s : Stream) : Decoded := Decoded.ofBytes 0 0 s.bytes

def canonicalBytes : List (Nat × Instr) → List UInt8 → List UInt8
  | (_, .imm v) :: instrs, b :: rest =>
    b :: (Bytecode.toBytes 4 v.canonical.bits.toNat ++ canonicalBytes instrs (rest.drop 4))
  | (_, i) :: instrs, rest => rest.take i.size ++ canonicalBytes instrs (rest.drop i.size)
  | [], rest => rest

def canonical (s : Stream) : Stream := ⟨canonicalBytes s.decode.instrs s.bytes⟩

end Stream

end Reckoner

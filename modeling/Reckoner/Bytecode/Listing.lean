import Reckoner.Bytecode.Stream
import Reckoner.Decimal.Layout

/-!
Streams as readable text, one instruction a line.
-/
namespace Reckoner

namespace Bytecode

/-- Immediates have the fewest digits that read back, an exponent below `1e-4` and from `1e16` on,
and else at least one digit after the point. -/
def immediateLayout : Layout where
  plainFrom := ⟨0x38d1b717⟩
  plainBelow := ⟨0x5a0e1bca⟩
  infinity := "inf"
  nan := "NaN"

def describe : Instr → String
  | .arg i => s!"arg  ${i}"
  | .imm v => "imm  " ++ immediateLayout.format v
  | .unary u => u.name
  | .binary op => op.name

def line (offset : Nat) (text : String) : String := Text.hex 4 offset ++ "  " ++ text ++ "\n"

end Bytecode

def Stream.listing (s : Stream) : String :=
  let decoded := s.decode
  let lines := decoded.instrs.map fun (offset, i) => Bytecode.line offset (Bytecode.describe i)
  let last :=
    match decoded.fault with
    | some e => Bytecode.line decoded.stop ("<" ++ e.text ++ ">")
    | none => ""
  String.join lines ++ last

def Stream.describe (s : Stream) : String := s!"Bytecode \x7b len: {s.length} \x7d"

end Reckoner

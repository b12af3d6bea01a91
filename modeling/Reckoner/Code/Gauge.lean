import Reckoner.Error

/-!
What a builder knows about the stack while it takes calls: how many values there are, how many
there were at most, how many arguments the code needs, and the first instruction that lacked
operands.
-/
namespace Reckoner

structure Gauge where
  depth : Nat
  peak : Nat
  required : Nat
  /-- The first instruction without enough operands, and the depth it found. -/
  shortage : Option (Instr × Nat)
  deriving DecidableEq, Repr

namespace Gauge

def start : Gauge := ⟨0, 0, 0, none⟩

def admits (g : Gauge) (i : Instr) : Bool := i.inputs ≤ g.depth

/-- Takes note of an instruction; one that is not admitted leaves the depth as it is. -/
def apply (g : Gauge) (i : Instr) : Gauge :=
  if g.admits i then
    let depth := g.depth - i.inputs + i.outputs
    { g with depth, peak := max g.peak depth, required := max g.required i.reach }
  else { g with shortage := g.shortage <|> some (i, g.depth) }

def fault? (g : Gauge) : Option Error :=
  match g.shortage with
  | some (i, found) => some (.internal (.shortage i found))
  | none => if g.depth = 1 then none else some (.internal (.leftover g.depth))

end Gauge

end Reckoner

/-!
The ways to run a compiled formula, by the names under which they are chosen.
-/
namespace Reckoner

/-- Code placed in executable pages, an encoded stream, or a plain list of instructions. -/
inductive Backend where
  | native
  | bytecode
  | soft
  deriving DecidableEq, Repr

namespace Backend

def name : Backend → String
  | native => "native"
  | bytecode => "bytecode"
  | soft => "soft"

def standard : Backend := native

def isAvailable : Backend → Bool
  | native | bytecode | soft => true

structure Unknown where
  name : String
  deriving DecidableEq, Repr

def Unknown.message (u : Unknown) : String := s!"unknown backend '{u.name}'"

def ofName : String → Except Unknown Backend
  | "native" | "jit" => .ok native
  | "bytecode" | "bc" => .ok bytecode
  | "soft" => .ok soft
  | other => .error ⟨other⟩

@[simp] theorem ofName_name (b : Backend) : ofName b.name = .ok b := by
  cases b <;> rfl

end Backend

end Reckoner

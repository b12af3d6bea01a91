import Reckoner.Error

/-!
The arguments that a formula may use, by name and by position.
-/
namespace Reckoner

/-- A formula has `count` arguments; the names stand for the first positions. -/
structure Scope where
  names : List String
  count : Nat
  deriving DecidableEq, Repr

namespace Scope

def ofNames (names : List String) : Scope := ⟨names, names.length⟩

def maxIndex : Nat := 0xffff

def resolveIndex (s : Scope) (n : UInt64) : Except Error UInt16 :=
  if n.toNat < s.count ∧ n.toNat ≤ maxIndex then .ok n.toUInt16
  else .error (.argNumber n s.count)

def resolveName (s : Scope) (name : String) : Except Error UInt16 :=
  match (s.names.take s.count).findIdx? (· = name) with
  | some i => if i ≤ maxIndex then .ok i.toUInt16 else .error (.argName name)
  | none => .error (.argName name)

end Scope

end Reckoner

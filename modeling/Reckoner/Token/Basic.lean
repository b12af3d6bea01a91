import Reckoner.Number.Arithmetic

/-!
Tokens of a formula and the places they take in its text.
-/
namespace Reckoner

/-- An unsigned number as it is handed to arithmetic: the whole part, the digits that are kept of
the fraction read as one number, how many those are, and whether there is a point at all. -/
structure Literal where
  whole : UInt64
  fraction : UInt64
  places : Nat
  pointed : Bool
  deriving DecidableEq, Repr

namespace Literal

def divider (A : Arithmetic) : (places : Nat) → Double
  | 0 => .one
  | places + 1 => A.binaryDouble .mul (divider A places) .ten

/-- Without a point the whole part is the value; with one, a fraction without digits is added too. -/
def value (A : Arithmetic) (l : Literal) : Double :=
  if l.pointed then
    A.binaryDouble .add (A.ofUInt64 l.whole)
      (A.binaryDouble .div (A.ofUInt64 l.fraction) (divider A l.places))
  else A.ofUInt64 l.whole

end Literal

inductive Token where
  | number (literal : Literal)
  | index (n : UInt64)
  /-- A name; `call` tells whether a parenthesis follows at once. -/
  | word (name : String) (call : Bool)
  | operator (op : Operator)
  | opening
  | closing
  deriving DecidableEq, Repr

structure Spanned where
  token : Token
  start : Nat
  stop : Nat
  deriving DecidableEq, Repr

end Reckoner

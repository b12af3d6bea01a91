import Reckoner.Expr.Grammar
import Reckoner.Token.Scan

/-!
Trees together with the way their leaves are written, and the text of such a tree.
-/
namespace Reckoner

/-- A number has a text of its own, and an argument is written by its position or by a name. -/
inductive Written where
  | number (text : String) (value : Double)
  | position (index : UInt16)
  | name (text : String) (index : UInt16)
  | binary (op : Operator) (left right : Written)
  | call (f : Intrinsic) (operand : Written)
  deriving DecidableEq, Repr

namespace Written

def expr : Written → Expr
  | number _ value => .num value
  | position index => .arg index
  | name _ index => .arg index
  | binary op left right => .binary op left.expr right.expr
  | call f operand => .call f operand.expr

def chars : Written → List Char
  | number text _ => text.toList
  | position index => '$' :: Nat.toDigits 10 index.toNat
  | name text _ => text.toList
  | binary op left right =>
    '(' :: left.chars ++ [' ', op.symbol, ' '] ++ right.chars ++ [')']
  | call f operand => f.name.toList ++ ['('] ++ operand.chars ++ [')']

def render (w : Written) : String := String.ofList w.chars

/-- Whether every leaf says what it stands for: the text of a number is one unsigned number of that
value, a position is that of an argument, and a name can be told from other tokens and is given first
to the argument that it stands for. -/
def Legible (A : Arithmetic) (s : Scope) : Written → Prop
  | number text value => (Scan.ofString text).fault = none ∧
    ∃ l, (Scan.ofString text).tokens.map Spanned.token = [.number l] ∧ l.value A = value
  | position index => index.toNat < s.count
  | name text index => text ≠ "" ∧ (∀ c ∈ text.toList, Token.isWordChar c = true) ∧
    s.Names text index.toNat
  | binary _ left right => left.Legible A s ∧ right.Legible A s
  | call _ operand => operand.Legible A s

end Written

end Reckoner

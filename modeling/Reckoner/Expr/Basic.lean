import Reckoner.Number.Arithmetic

/-!
Formulas as trees.
-/
namespace Reckoner

inductive Expr where
  | num (value : Double)
  | arg (index : UInt16)
  | binary (op : Operator) (left right : Expr)
  | call (f : Intrinsic) (operand : Expr)
  deriving DecidableEq, Repr

def Expr.isLeaf : Expr → Bool
  | num _ | arg _ => true
  | binary _ _ _ | call _ _ => false

end Reckoner

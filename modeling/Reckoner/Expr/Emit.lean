import Reckoner.Code.Call
import Reckoner.Expr.Basic
import Reckoner.Options

/-!
Code for a formula. Each function takes the code that follows, so that code is only ever put in
front.
-/
namespace Reckoner.Expr

inductive Operand where
  | imm (value : Single)
  | arg (index : UInt16)
  deriving DecidableEq, Repr

def operand? (A : Arithmetic) : Expr → Option Operand
  | num v => some (.imm (A.narrow v))
  | arg i => some (.arg i)
  | binary _ _ _ | call _ _ => none

def Operand.push : Operand → Call
  | imm v => .push (.imm v)
  | arg i => .push (.arg i)

def Operand.apply (fuse : Bool) (op : Operator) (o : Operand) (k : List Call) : List Call :=
  if fuse then
    match o with
    | imm v => .binaryImm op v :: k
    | arg i => .binaryArg op i :: k
  else o.push :: .push (.binary op) :: k

/-- Code that pushes the value of the formula, followed by `k`. A leaf on the right is applied
directly; a leaf on the left of a commutative operator is too if calls may be fused, and changes
sides with the rest. -/
def emit (A : Arithmetic) (fuse : Bool) : Expr → List Call → List Call
  | num v, k => .push (.imm (A.narrow v)) :: k
  | arg i, k => .push (.arg i) :: k
  | call f (arg i), k =>
    if fuse then .callArg f i :: k else .push (.arg i) :: .push (.unary (.call f)) :: k
  | call f e, k => emit A fuse e (.push (.unary (.call f)) :: k)
  | binary op l r, k =>
    match operand? A r with
    | some o => emit A fuse l (o.apply fuse op k)
    | none =>
      match if fuse && op.isCommutative then operand? A l else none with
      | some o => emit A fuse r (o.apply fuse op k)
      | none => emit A fuse l (emit A fuse r (.push (.binary op) :: k))

def calls (A : Arithmetic) (o : Options) (e : Expr) : List Call := emit A o.fuseOperands e []

end Reckoner.Expr

import Reckoner.Expr.Basic
import Reckoner.Options

/-!
Computing the constant parts of a formula ahead of time, in double precision.
-/
namespace Reckoner.Expr

def foldBinary (A : Arithmetic) (o : Options) (op : Operator) : Expr → Expr → Expr
  | num x, num y => if o.foldConstants then num (A.binaryDouble op x y) else binary op (num x) (num y)
  | l, r => binary op l r

def foldCall (A : Arithmetic) (o : Options) (f : Intrinsic) : Expr → Expr
  | num x => if o.foldIntrinsics then num (A.intrinsicDouble f x) else call f (num x)
  | e => call f e

def fold (A : Arithmetic) (o : Options) : Expr → Expr
  | num v => num v
  | arg i => arg i
  | binary op l r => foldBinary A o op (fold A o l) (fold A o r)
  | call f e => foldCall A o f (fold A o e)

end Reckoner.Expr

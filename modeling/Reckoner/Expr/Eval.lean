import Reckoner.Expr.Basic

/-!
The value of a formula, by recursion on the tree: in single precision, in double precision, and with
constant parts in double precision and all else in single.
-/
namespace Reckoner.Expr

def args : Expr → List UInt16
  | num _ => []
  | arg i => [i]
  | binary _ l r => l.args ++ r.args
  | call _ e => e.args

def evalSingle (A : Arithmetic) (env : UInt16 → Single) : Expr → Single
  | num v => A.narrow v
  | arg i => env i
  | binary op l r => A.binarySingle op (l.evalSingle A env) (r.evalSingle A env)
  | call f e => A.intrinsicSingle f (e.evalSingle A env)

def evalDouble (A : Arithmetic) (env : UInt16 → Double) : Expr → Double
  | num v => v
  | arg i => env i
  | binary op l r => A.binaryDouble op (l.evalDouble A env) (r.evalDouble A env)
  | call f e => A.intrinsicDouble f (e.evalDouble A env)

def constant? (A : Arithmetic) : Expr → Option Double
  | num v => some v
  | arg _ => none
  | binary op l r => do return A.binaryDouble op (← l.constant? A) (← r.constant? A)
  | call f e => do return A.intrinsicDouble f (← e.constant? A)

/-- The value with every part that has no argument computed in double precision and narrowed
once. -/
def evalMixed (A : Arithmetic) (env : UInt16 → Single) : Expr → Single
  | num v => A.narrow v
  | arg i => env i
  | binary op l r =>
    match (binary op l r).constant? A with
    | some v => A.narrow v
    | none => A.binarySingle op (l.evalMixed A env) (r.evalMixed A env)
  | call f e =>
    match (call f e).constant? A with
    | some v => A.narrow v
    | none => A.intrinsicSingle f (e.evalMixed A env)

end Reckoner.Expr

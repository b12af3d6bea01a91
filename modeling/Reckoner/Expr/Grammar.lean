import Reckoner.Expr.Basic
import Reckoner.Expr.Scope
import Reckoner.Token.Basic

/-!
The grammar of formulas over tokens, apart from any way to read them.
-/
namespace Reckoner

inductive Phrase where
  | sum
  | product
  | operand
  deriving DecidableEq, Repr

def Scope.Names (s : Scope) (name : String) (i : Nat) : Prop :=
  i < s.count ∧ s.names[i]? = some name ∧ ∀ j < i, s.names[j]? ≠ some name

/-- `Derives A s p ts e`: the tokens are a phrase of that kind and mean the tree. -/
inductive Derives (A : Arithmetic) (s : Scope) : Phrase → List Token → Expr → Prop
  | number (l : Literal) : Derives A s .operand [.number l] (.num (l.value A))
  | plus (l : Literal) : Derives A s .operand [.operator .add, .number l] (.num (l.value A))
  | minus (l : Literal) :
    Derives A s .operand [.operator .sub, .number l] (.num (A.neg (l.value A)))
  | index (n : UInt64) (hn : n.toNat < s.count) (hi : n.toNat ≤ Scope.maxIndex) :
    Derives A s .operand [.index n] (.arg n.toUInt16)
  | name (name : String) (call : Bool) (i : Nat)
    (hf : call = true → Intrinsic.ofName? name = none) (hn : s.Names name i)
    (hi : i ≤ Scope.maxIndex) : Derives A s .operand [.word name call] (.arg i.toUInt16)
  | call (f : Intrinsic) (ts : List Token) (e : Expr) (he : Derives A s .sum ts e) :
    Derives A s .operand (.word f.name true :: .opening :: ts ++ [.closing]) (.call f e)
  | group (ts : List Token) (e : Expr) (he : Derives A s .sum ts e) :
    Derives A s .operand (.opening :: ts ++ [.closing]) e
  | factor (ts : List Token) (e : Expr) (he : Derives A s .operand ts e) :
    Derives A s .product ts e
  | product (ls rs : List Token) (l r : Expr) (op : Operator) (hop : op.isAdditive = false)
    (hl : Derives A s .product ls l) (hr : Derives A s .operand rs r) :
    Derives A s .product (ls ++ .operator op :: rs) (.binary op l r)
  | term (ts : List Token) (e : Expr) (he : Derives A s .product ts e) : Derives A s .sum ts e
  | sum (ls rs : List Token) (l r : Expr) (op : Operator) (hop : op.isAdditive = true)
    (hl : Derives A s .sum ls l) (hr : Derives A s .product rs r) :
    Derives A s .sum (ls ++ .operator op :: rs) (.binary op l r)

end Reckoner

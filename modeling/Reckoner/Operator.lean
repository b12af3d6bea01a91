/-!
The operators and built-in functions of formulas, with their names and symbols.
-/
namespace Reckoner

inductive Operator where
  | add
  | sub
  | div
  | mul
  deriving DecidableEq, Repr

namespace Operator

def name : Operator → String
  | add => "add"
  | sub => "sub"
  | div => "div"
  | mul => "mul"

def symbol : Operator → Char
  | add => '+'
  | sub => '-'
  | div => '/'
  | mul => '*'

def ofName? : String → Option Operator
  | "add" => some add
  | "sub" => some sub
  | "div" => some div
  | "mul" => some mul
  | _ => none

def isCommutative : Operator → Bool
  | add | mul => true
  | sub | div => false

def isAdditive : Operator → Bool
  | add | sub => true
  | mul | div => false

@[simp] theorem ofName?_name (op : Operator) : ofName? op.name = some op := by
  cases op <;> rfl

end Operator

inductive Intrinsic where
  | sin
  | cos
  | sqrt
  deriving DecidableEq, Repr

namespace Intrinsic

def name : Intrinsic → String
  | sin => "sin"
  | cos => "cos"
  | sqrt => "sqrt"

def ofName? : String → Option Intrinsic
  | "sin" => some sin
  | "cos" => some cos
  | "sqrt" => some sqrt
  | _ => none

@[simp] theorem ofName?_name (f : Intrinsic) : ofName? f.name = some f := by
  cases f <;> rfl

end Intrinsic

end Reckoner

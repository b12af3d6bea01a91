import Reckoner.Expr.Basic
import Reckoner.Expr.Scope
import Reckoner.Token.Scan

/-!
Reading a tree off a sequence of tokens. The reader goes through the tokens once; between two of
them its state is the part of the tree that is already known: the operands and operators that wait
for what follows, one level for each open parenthesis. Products bind closer than sums and both
group to the left.
-/
namespace Reckoner

/-- What waits, inside one pair of parentheses, for the operand that is being read: a sum to be
continued, and a product to be continued. -/
structure Waiting where
  sum : Option (Expr × Operator)
  product : Option (Expr × Operator)
  deriving DecidableEq, Repr

namespace Waiting

def empty : Waiting := ⟨none, none⟩

def join : Option (Expr × Operator) → Expr → Expr
  | none, right => right
  | some (left, op), right => .binary op left right

def closeProduct (w : Waiting) (e : Expr) : Expr := join w.product e

def closeSum (w : Waiting) (e : Expr) : Expr := join w.sum (w.closeProduct e)

def continueWith (w : Waiting) (e : Expr) (op : Operator) : Waiting :=
  if op.isAdditive then ⟨some (w.closeSum e, op), none⟩
  else { w with product := some (w.closeProduct e, op) }

end Waiting

structure Enclosure where
  call : Option Intrinsic
  outside : Waiting
  deriving DecidableEq, Repr

def Enclosure.close (e : Enclosure) (contents : Expr) : Expr :=
  match e.call with
  | none => contents
  | some f => .call f contents

inductive Expectation where
  | operand
  /-- The number that a sign stands before. -/
  | magnitude (negative : Bool)
  | opening (f : Intrinsic)
  | continuation (operand : Expr)
  deriving DecidableEq, Repr

structure Reading where
  enclosures : List Enclosure
  waiting : Waiting
  expects : Expectation
  deriving DecidableEq, Repr

namespace Reading

def start : Reading := ⟨[], .empty, .operand⟩

def complete (r : Reading) (e : Expr) : Reading := { r with expects := .continuation e }

def enclose (r : Reading) (call : Option Intrinsic) : Reading :=
  ⟨⟨call, r.waiting⟩ :: r.enclosures, .empty, .operand⟩

def readOperand (A : Arithmetic) (scope : Scope) (r : Reading) (offset : Nat) :
    Token → Except Error Reading
  | .number l => .ok (r.complete (.num (l.value A)))
  | .operator op =>
    if op.isAdditive then .ok { r with expects := .magnitude (op = .sub) }
    else .error (.syntaxError offset .operandExpected)
  | .index n =>
    match scope.resolveIndex n with
    | .ok i => .ok (r.complete (.arg i))
    | .error e => .error e
  | .word name call =>
    match if call then Intrinsic.ofName? name else none with
    | some f => .ok { r with expects := .opening f }
    | none =>
      match scope.resolveName name with
      | .ok i => .ok (r.complete (.arg i))
      | .error e => .error e
  | .opening => .ok (r.enclose none)
  | .closing => .error (.syntaxError offset .operandExpected)

def readMagnitude (A : Arithmetic) (r : Reading) (negative : Bool) (offset : Nat) :
    Token → Except Error Reading
  | .number l => .ok (r.complete (.num (if negative then A.neg (l.value A) else l.value A)))
  | _ => .error (.syntaxError offset .numberAfterSign)

def readOpening (r : Reading) (f : Intrinsic) (offset : Nat) : Token → Except Error Reading
  | .opening => .ok (r.enclose (some f))
  | _ => .error (.syntaxError offset .openingExpected)

def readContinuation (r : Reading) (e : Expr) (offset : Nat) : Token → Except Error Reading
  | .operator op => .ok ⟨r.enclosures, r.waiting.continueWith e op, .operand⟩
  | .closing =>
    match r.enclosures with
    | [] => .error (.syntaxError offset .unmatchedClosing)
    | enclosure :: outer =>
      .ok ⟨outer, enclosure.outside, .continuation (enclosure.close (r.waiting.closeSum e))⟩
  | _ =>
    match r.enclosures with
    | [] => .error (.syntaxError offset .trailingInput)
    | _ :: _ => .error (.syntaxError offset .closingExpected)

def step (A : Arithmetic) (scope : Scope) (r : Reading) (offset : Nat) (t : Token) :
    Except Error Reading :=
  match r.expects with
  | .operand => r.readOperand A scope offset t
  | .magnitude negative => r.readMagnitude A negative offset t
  | .opening f => r.readOpening f offset t
  | .continuation e => r.readContinuation e offset t

def run (A : Arithmetic) (scope : Scope) : Reading → List Spanned → Except Error Reading
  | r, [] => .ok r
  | r, t :: ts =>
    match r.step A scope t.start t.token with
    | .ok r => run A scope r ts
    | .error e => .error e

def finish (r : Reading) (offset : Nat) : Except Error Expr :=
  match r.expects with
  | .operand => .error (.syntaxError offset .unexpectedEnd)
  | .magnitude _ => .error (.syntaxError offset .numberAfterSign)
  | .opening _ => .error (.syntaxError offset .openingExpected)
  | .continuation e =>
    match r.enclosures with
    | [] => .ok (r.waiting.closeSum e)
    | _ :: _ => .error (.syntaxError offset .closingExpected)

end Reading

/-- Reads a formula. An unreadable token is reported only if the tokens before it are right. -/
def Expr.parse (A : Arithmetic) (scope : Scope) (source : String) : Except Error Expr :=
  let scan := Scan.ofString source
  match Reading.start.run A scope scan.tokens with
  | .error e => .error e
  | .ok r =>
    match scan.fault with
    | some cause => .error (.syntaxError scan.stop cause)
    | none => r.finish scan.stop

end Reckoner

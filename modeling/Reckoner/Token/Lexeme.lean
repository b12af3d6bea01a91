import Reckoner.Error
import Reckoner.Token.Basic

/-!
Reading one token off the front of a text. Every reader takes the longest run of characters of its
class.
-/
namespace Reckoner

/-- What is kept of a run of decimal digits: the value of the first `count` of them modulo `2 ^ 64`.
The run itself has `length` digits. -/
structure DigitRun where
  value : UInt64
  count : Nat
  length : Nat
  deriving DecidableEq, Repr

namespace DigitRun

def digit (c : Char) : UInt64 := (c.toNat - '0'.toNat).toUInt64

def read (limit : Nat) (cs : List Char) : DigitRun :=
  let run := cs.takeWhile Char.isDigit
  let kept := run.take limit
  ⟨kept.foldl (fun v c => v * 10 + digit c) 0, kept.length, run.length⟩

def wholeLimit : Nat := 0xffffffff

/-- Further digits of a fraction lie below single precision. -/
def fractionLimit : Nat := 18

/-- A position of this many digits is not computed: it stands for the greatest word. -/
def indexLimit : Nat := 20

end DigitRun

namespace Literal

/-- Reads digits with an optional fraction; one of the two parts may be empty. Gives the literal
and the number of its characters. -/
def read (cs : List Char) : Except SyntaxCause (Literal × Nat) :=
  let whole := DigitRun.read DigitRun.wholeLimit cs
  match cs.drop whole.length with
  | '.' :: rest =>
    let fraction := DigitRun.read DigitRun.fractionLimit rest
    if whole.count = 0 ∧ fraction.count = 0 then .error .digitsAfterPoint
    else
      .ok (⟨whole.value, fraction.value, fraction.count, true⟩, whole.length + 1 + fraction.length)
  | _ => .ok (⟨whole.value, 0, 0, false⟩, whole.length)

end Literal

namespace Token

def isWordChar (c : Char) : Bool := c.isAlpha || c = '_' || 0x80 ≤ c.toNat

def readIndex (rest : List Char) : Except SyntaxCause (Token × Nat) :=
  let run := DigitRun.read DigitRun.wholeLimit rest
  if run.count = 0 then .error .digitsAfterDollar
  else
    let n := if run.count < DigitRun.indexLimit then run.value else 0xffffffffffffffff
    .ok (.index n, run.length)

/-- Reads the token that starts with `c`; gives it with the number of characters that it takes of
`rest`. -/
def read (c : Char) (rest : List Char) : Except SyntaxCause (Token × Nat) :=
  if c = '(' then .ok (.opening, 0)
  else if c = ')' then .ok (.closing, 0)
  else if c = '+' then .ok (.operator .add, 0)
  else if c = '-' then .ok (.operator .sub, 0)
  else if c = '*' then .ok (.operator .mul, 0)
  else if c = '/' then .ok (.operator .div, 0)
  else if c = '$' then readIndex rest
  else if c.isDigit || c = '.' then
    match Literal.read (c :: rest) with
    | .ok (l, n) => .ok (.number l, n - 1)
    | .error cause => .error cause
  else if isWordChar c then
    let tail := rest.takeWhile isWordChar
    let call := (rest.drop tail.length).head? = some '('
    .ok (.word (String.ofList (c :: tail)) call, tail.length)
  else .error (.unexpectedCharacter c)

end Token

end Reckoner

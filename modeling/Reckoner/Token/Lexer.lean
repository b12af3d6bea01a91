import Reckoner.Text.Bytes
import Reckoner.Text.Lossy
import Reckoner.Token.Scan

/-!
Reading a text byte by byte, one token a call. The lexer knows bytes only: what it takes together
need not be whole characters.
-/
namespace Reckoner

def DigitRun.push (limit : Nat) (run : DigitRun) (d : UInt64) : DigitRun :=
  if run.count < limit then ⟨run.value * 10 + d, run.count + 1, run.length + 1⟩
  else { run with length := run.length + 1 }

structure Lexer where
  offset : Nat
  rest : List UInt8
  deriving DecidableEq, Repr

namespace Lexer

def ofString (s : String) : Lexer := ⟨0, Text.bytes s⟩

def isSpacing (b : UInt8) : Bool :=
  b = 0x20 || b = 0x09 || b = 0x0a || b = 0x0c || b = 0x0d

def isDigit (b : UInt8) : Bool := 0x30 ≤ b && b ≤ 0x39

def isWord (b : UInt8) : Bool :=
  (0x41 ≤ b && b ≤ 0x5a) || (0x61 ≤ b && b ≤ 0x7a) || b = 0x5f || 0x80 ≤ b

def advance (l : Lexer) (n : Nat) : Lexer := ⟨l.offset + n, l.rest.drop n⟩

def skipSpacing (l : Lexer) : Lexer := l.advance (l.rest.takeWhile isSpacing).length

def digitsFrom (limit : Nat) (run : DigitRun) (offset : Nat) : List UInt8 → DigitRun × Lexer
  | [] => (run, ⟨offset, []⟩)
  | b :: bs =>
    if isDigit b then digitsFrom limit (run.push limit (b - 0x30).toUInt64) (offset + 1) bs
    else (run, ⟨offset, b :: bs⟩)

def digits (limit : Nat) (l : Lexer) : DigitRun × Lexer := digitsFrom limit ⟨0, 0, 0⟩ l.offset l.rest

def number (l : Lexer) : Except SyntaxCause (Token × Lexer) :=
  let (whole, l) := l.digits DigitRun.wholeLimit
  if l.rest.head? = some 0x2e then
    let point := l.advance 1
    let (fraction, l) := point.digits DigitRun.fractionLimit
    if whole.count = 0 ∧ l.offset = point.offset then .error .digitsAfterPoint
    else .ok (.number ⟨whole.value, fraction.value, fraction.count, true⟩, l)
  else .ok (.number ⟨whole.value, 0, 0, false⟩, l)

def index (l : Lexer) : Except SyntaxCause (Token × Lexer) :=
  let (run, l) := l.digits DigitRun.wholeLimit
  if run.count = 0 then .error .digitsAfterDollar
  else .ok (.index (if run.count < DigitRun.indexLimit then run.value else 0xffffffffffffffff), l)

def word (l : Lexer) : Token × Lexer :=
  let name := l.rest.takeWhile isWord
  let l := l.advance name.length
  (.word (Text.ofBytesLossy name) (l.rest.head? = some 0x28), l)

def token (b : UInt8) (l : Lexer) : Except SyntaxCause (Token × Lexer) :=
  if b = 0x28 then .ok (.opening, l.advance 1)
  else if b = 0x29 then .ok (.closing, l.advance 1)
  else if b = 0x2b then .ok (.operator .add, l.advance 1)
  else if b = 0x2d then .ok (.operator .sub, l.advance 1)
  else if b = 0x2a then .ok (.operator .mul, l.advance 1)
  else if b = 0x2f then .ok (.operator .div, l.advance 1)
  else if b = 0x24 then (l.advance 1).index
  else if isDigit b || b = 0x2e then l.number
  else if isWord b then .ok l.word
  else .error (.unexpectedCharacter (Char.ofUInt8 b))

/-- The next token with the bytes it takes, or nothing at the end of the text. An error stands at
the byte where the token would start. -/
def next (l : Lexer) : Except (Nat × SyntaxCause) (Option Spanned × Lexer) :=
  let l := l.skipSpacing
  match l.rest with
  | [] => .ok (none, l)
  | b :: _ =>
    match l.token b with
    | .ok (t, after) => .ok (some ⟨t, l.offset, after.offset⟩, after)
    | .error cause => .error (l.offset, cause)

/-- What at most so many calls give, if the last of them comes to the end or to an error. -/
def drain : (calls : Nat) → Lexer → Option Scan
  | 0, _ => none
  | calls + 1, l =>
    match l.next with
    | .ok (none, after) => some ⟨[], after.offset, none⟩
    | .ok (some t, after) => (drain calls after).map (Scan.cons t)
    | .error (offset, cause) => some ⟨[], offset, some cause⟩

end Lexer

end Reckoner

import Reckoner.Decimal.Layout

/-!
Reading a decimal as the nearest single. All digits count, and half way between two singles the
even pattern is taken.
-/
namespace Reckoner

inductive NumberError where
  | empty
  | invalid
  deriving DecidableEq, Repr

def NumberError.text : NumberError → String
  | empty => "cannot parse float from empty string"
  | invalid => "invalid float literal"

namespace Single

def infinity : Nat := 0x7f800000

/-- The pattern of the single nearest to `num / den`. The fraction is rounded to the places that
its exponent leaves; a carry out of them lands in the exponent. -/
def ofRatio (num den : Nat) : Nat :=
  let scaled := num * one
  let shift := (scaled / den).log2 - 23
  min infinity (shift * 0x800000 + Decimal.roundDiv scaled (den * Nat.pow 2 shift))

/-- The pattern of the single nearest to a decimal. Far beyond the greatest and the least single the
power of ten is not computed. -/
def ofDecimal (d : Decimal) : Nat :=
  let position := Vicinity.digitCount d.digits + d.exponent
  if d.digits = 0 ∨ position < -60 then 0
  else if 60 < position then infinity
  else ofRatio (d.digits * Nat.pow 10 d.exponent.toNat) (Nat.pow 10 (-d.exponent).toNat)

end Single

namespace Decimal

def ofDigits (cs : List Char) : Nat := cs.foldl (fun n c => 10 * n + (c.toNat - '0'.toNat)) 0

def readSign : List Char → Bool × List Char
  | '-' :: rest => (true, rest)
  | '+' :: rest => (false, rest)
  | cs => (false, cs)

def readExponent? : List Char → Option Int
  | [] => some 0
  | c :: rest =>
    if c = 'e' ∨ c = 'E' then
      let (negative, digits) := readSign rest
      if digits.isEmpty || !digits.all Char.isDigit then none
      else if negative then some (-(ofDigits digits : Int))
      else some (ofDigits digits)
    else none

def read? (cs : List Char) : Option Decimal :=
  let whole := cs.takeWhile Char.isDigit
  let (fraction, rest) :=
    match cs.dropWhile Char.isDigit with
    | '.' :: rest => (rest.takeWhile Char.isDigit, rest.dropWhile Char.isDigit)
    | rest => ([], rest)
  if whole.isEmpty && fraction.isEmpty then none
  else (readExponent? rest).map fun e => ⟨ofDigits (whole ++ fraction), e - fraction.length⟩

end Decimal

/-- Reads a whole text as a single: a signed decimal, or the name of infinity or NaN in any case. -/
def Single.read (cs : List Char) : Except NumberError Single :=
  let (negative, body) := Decimal.readSign cs
  let signed (magnitude : Nat) : Single :=
    ⟨(if negative then 0x80000000 + magnitude else magnitude).toUInt32⟩
  let word := String.ofList (body.map Char.toLower)
  if cs.isEmpty then .error .empty
  else
    match Decimal.read? body with
    | some d => .ok (signed (Single.ofDecimal d))
    | none =>
      if word = "inf" ∨ word = "infinity" then .ok (signed Single.infinity)
      else if word = "nan" then .ok .nan
      else .error .invalid

end Reckoner

/-!
Hexadecimal text and the visible form of a single byte.
-/
namespace Reckoner.Text

def hex (width n : Nat) : String :=
  let digits := Nat.toDigits 16 n
  String.ofList (List.replicate (width - digits.length) '0' ++ digits)

/-- A character as it is shown in a message: printable ASCII stands for itself, with quotes and
backslashes escaped, and anything else is written by its code. -/
def visible (c : Char) : String :=
  if c = '\t' then "\\t"
  else if c = '\r' then "\\r"
  else if c = '\n' then "\\n"
  else if c = '\'' then "\\'"
  else if c = '"' then "\\\""
  else if c = '\\' then "\\\\"
  else if 0x20 ≤ c.toNat ∧ c.toNat ≤ 0x7e then String.singleton c
  else "\\x" ++ hex 2 c.toNat

end Reckoner.Text

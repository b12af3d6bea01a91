import Reckoner.Text.Blank
import Reckoner.Token.Lexeme

/-!
A text cut into tokens. The scan goes on to the end of the text or to the first place where no
token can be read, and says which of the two it was.
-/
namespace Reckoner

/-- The tokens of a text up to `stop`, which is its end unless a token could not be read there. -/
structure Scan where
  tokens : List Spanned
  stop : Nat
  fault : Option SyntaxCause
  deriving DecidableEq, Repr

namespace Scan

def cons (t : Spanned) (s : Scan) : Scan := { s with tokens := t :: s.tokens }

/-- Scans a text that starts at byte `offset`, after leaving out `skip` characters that belong to
the token before. -/
def ofChars : (skip offset : Nat) → List Char → Scan
  | _, offset, [] => ⟨[], offset, none⟩
  | skip + 1, offset, c :: cs => ofChars skip (offset + c.utf8Size) cs
  | 0, offset, c :: cs =>
    let next := offset + c.utf8Size
    if Text.isSpacing c then ofChars 0 next cs
    else
      match Token.read c cs with
      | .ok (t, n) => (ofChars n next cs).cons ⟨t, offset, next + Text.byteLength (cs.take n)⟩
      | .error cause => ⟨[], offset, some cause⟩

def ofString (s : String) : Scan := ofChars 0 0 s.toList

end Scan

end Reckoner

/-!
Lengths of text in bytes of its UTF-8 form, and the longest start of a text that fits a number of
bytes.
-/
namespace Reckoner.Text

def bytes (s : String) : List UInt8 := s.toByteArray.data.toList

def byteLength : List Char → Nat
  | [] => 0
  | c :: cs => c.utf8Size + byteLength cs

@[simp] theorem byteLength_nil : byteLength [] = 0 := rfl

@[simp] theorem byteLength_cons (c : Char) (cs : List Char) :
    byteLength (c :: cs) = c.utf8Size + byteLength cs := rfl

@[simp] theorem byteLength_append (as bs : List Char) :
    byteLength (as ++ bs) = byteLength as + byteLength bs := by
  induction as with
  | nil => simp
  | cons c cs ih => simp [ih, Nat.add_assoc]

/-- The longest start of the text that takes at most `room` bytes. -/
def cut : Nat → List Char → List Char
  | _, [] => []
  | room, c :: cs => if c.utf8Size ≤ room then c :: cut (room - c.utf8Size) cs else []

/-- The last place between two characters that is not behind byte `i`, found by going back from
there. -/
def boundaryBefore (s : String) : (i : Nat) → s.Pos
  | 0 => s.startPos
  | i + 1 => if h : String.Pos.Raw.IsValid s ⟨i + 1⟩ then ⟨⟨i + 1⟩, h⟩ else boundaryBefore s i

def clip (limit : Nat) (s : String) : String :=
  if limit < s.utf8ByteSize then String.extract s.startPos (boundaryBefore s limit) else s

end Reckoner.Text

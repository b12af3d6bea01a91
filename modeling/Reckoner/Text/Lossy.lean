/-!
Text from bytes that need not be UTF-8. Where no character can be read, a replacement character
stands for as many bytes as could be the start of one.
-/
namespace Reckoner.Text

def admitsSecond (first second : UInt8) : Bool :=
  let low := if first = 0xe0 then 0xa0 else if first = 0xf0 then 0x90 else 0x80
  let high := if first = 0xed then 0x9f else if first = 0xf4 then 0x8f else 0xbf
  0xe0 ≤ first && first ≤ 0xf4 && low ≤ second && second ≤ high

/-- The number of bytes at a place where no character can be read that are replaced together: the
longest start of a character, or one byte. -/
def brokenLength : List UInt8 → Nat
  | first :: second :: rest =>
    if admitsSecond first second then
      if 0xf0 ≤ first && rest.head?.any (fun third => 0x80 ≤ third && third ≤ 0xbf) then 3 else 2
    else 1
  | _ => 1

def charsLossy : (skip : Nat) → List UInt8 → List Char
  | _, [] => []
  | skip + 1, _ :: bs => charsLossy skip bs
  | 0, b :: bs =>
    match (b :: bs).toByteArray.utf8DecodeChar? 0 with
    | some c => c :: charsLossy (c.utf8Size - 1) bs
    | none => '\ufffd' :: charsLossy (brokenLength (b :: bs) - 1) bs

def ofBytesLossy (bytes : List UInt8) : String := String.ofList (charsLossy 0 bytes)

end Reckoner.Text

import Reckoner.Page.Request
import Reckoner.Text.Hex

/-!
What happens in a page pool, in order: the requests to the allocator and their outcome, and what
becomes of the pages.
-/
namespace Reckoner.Page

inductive Event where
  | granted (request : Request)
  | refused (request : Request)
  | freed (region length : Nat)
  | opened (page length : Nat)
  | reused (page length : Nat)
  | packed (page offset length : Nat)
  | wrote (page offset length : Nat)
  | frozen (page : Nat)
  | vacated (page : Nat)
  deriving DecidableEq, Repr

def Event.message? : Event → Option String
  | opened page length => some s!"allocate page {page} ({length} bytes)"
  | reused page length => some s!"reuse page {page} ({length} bytes)"
  | packed page offset length =>
    some (s!"pack {length} bytes into page {page} at 0x" ++ Text.hex 1 offset)
  | frozen page => some s!"seal page {page}"
  | vacated page => some s!"page {page} is free"
  | granted _ | refused _ | freed _ _ | wrote _ _ _ => none

def Event.isCall : Event → Bool
  | granted _ | refused _ | freed _ _ => true
  | opened _ _ | reused _ _ | packed _ _ _ | wrote _ _ _ | frozen _ | vacated _ => false

end Reckoner.Page

/-!
What a page pool asks of the allocator that owns the memory.
-/
namespace Reckoner

inductive RequestKind where
  | allocate
  | freeze
  | renew
  deriving DecidableEq, Repr

namespace RequestKind

def name : RequestKind → String
  | allocate => "allocate"
  | freeze => "seal"
  | renew => "renew"

def ofName? : String → Option RequestKind
  | "allocate" => some allocate
  | "seal" => some freeze
  | "renew" => some renew
  | _ => none

end RequestKind

/-- A request: fresh writable memory of a length, or a change of protection of a region. Freezing
makes a region executable, renewing makes it writable again. -/
inductive Request where
  | allocate (length : Nat)
  | freeze (region length : Nat)
  | renew (region length : Nat)
  deriving DecidableEq, Repr

def Request.kind : Request → RequestKind
  | allocate _ => .allocate
  | freeze _ _ => .freeze
  | renew _ _ => .renew

end Reckoner

import Reckoner.Page.Pool

/-!
The life of a pool, as a sequence of actions by its users.
-/
namespace Reckoner

inductive Pool.Action where
  | place (code : List UInt8) (pack : Bool)
  | freezePending
  | release (page : Nat)
  deriving DecidableEq, Repr

namespace Pool

def act (p : Pool) : Action → Pool
  | .place code pack => (p.place code pack).2
  | .freezePending => p.freezePending.2
  | .release page => p.release page

def actAll (p : Pool) (actions : List Action) : Pool := actions.foldl act p

end Pool

end Reckoner

import Reckoner.Context.Batch

/-!
Sessions: contexts, calculations and builders by number, and who owns what. A calculation belongs
to the context that made it. The pool of a native context is owned by the context and by each of its
calculations, and is closed when the last owner goes.
-/
namespace Reckoner

structure Member where
  context : Context
  alive : Bool
  observed : Bool
  seen : Nat

structure Held where
  calculation : Calculation
  owner : Option Nat
  deriving DecidableEq, Repr

/-- Numbers are given in order and not used again; what is gone leaves a gap. -/
structure Session where
  contexts : List Member
  calculations : List (Option Held)
  builders : List (Option Builder)

def Held.leases (context : Nat) (h : Held) : Bool :=
  h.owner = some context && h.calculation.page?.isSome

namespace Member

def owners (leases : Nat) (m : Member) : Nat := (if m.alive then 1 else 0) + leases

def settle (leases : Nat) (m : Member) : Member :=
  if m.owners leases = 0 then { m with context := m.context.updatePool Pool.close } else m

end Member

namespace Session

def empty : Session := ⟨[], [], []⟩

def leases (s : Session) (context : Nat) : Nat := s.calculations.countP (·.any (·.leases context))

def context? (s : Session) (id : Nat) : Option Context :=
  match s.contexts[id]? with
  | some m => if m.alive then some m.context else none
  | none => none

def observed? (s : Session) (id : Nat) : Option Member :=
  match s.contexts[id]? with
  | some m => if m.observed then some m else none
  | none => none

def calculation? (s : Session) (id : Nat) : Option Held := s.calculations[id]?.join

def builder? (s : Session) (id : Nat) : Option Builder := s.builders[id]?.join

def setContext (s : Session) (id : Nat) (c : Context) : Session :=
  { s with contexts := s.contexts.modify id fun m => { m with context := c } }

def addContext (s : Session) (c : Context) (observed : Bool) : Session :=
  { s with contexts := s.contexts ++ [⟨c, true, observed, 0⟩] }

def addCalculation (s : Session) (c : Calculation) (owner : Option Nat) : Session :=
  { s with calculations := s.calculations ++ [some ⟨c, owner⟩] }

def addBuilder (s : Session) (b : Builder) : Session := { s with builders := s.builders ++ [some b] }

def setBuilder (s : Session) (id : Nat) (b : Option Builder) : Session :=
  { s with builders := s.builders.set id b }

/-- Calls native code of the context that a calculation belongs to, dropped or not. -/
def call (s : Session) (held : Held) (entry : Placement) (args : List Single) : Single :=
  match held.owner.bind (s.contexts[·]?) with
  | some m => m.context.call entry args
  | none => .nan

def discard (s : Session) (id : Nat) (held : Held) : Session :=
  let s := { s with calculations := s.calculations.set id none }
  match held.owner with
  | none => s
  | some owner =>
    { s with contexts := s.contexts.modify owner fun m =>
        { m with context := m.context.discard held.calculation }.settle (s.leases owner) }

def dropContext (s : Session) (id : Nat) : Session :=
  { s with contexts := s.contexts.modify id fun m => { m with alive := false }.settle (s.leases id) }

end Session

end Reckoner

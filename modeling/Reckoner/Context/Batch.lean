import Reckoner.Context.Basic

/-!
Batches: formulas compiled one after another into shared pages, which become executable together.
-/
namespace Reckoner

inductive Slot where
  | compiled (calculation : Calculation)
  | failed (error : Error)
  | skipped
  deriving DecidableEq, Repr

def Slot.isFailed : Slot → Bool
  | failed _ => true
  | compiled _ | skipped => false

/-- The result of a batch: a slot for each item, the number from one of the first failed item or
zero, and the context that is left. -/
structure Batch where
  slots : List Slot
  firstFailure : Nat
  context : Context
  notes : List Note

namespace Batch

def push (b : Batch) (slot : Slot) : Batch := { b with slots := b.slots ++ [slot] }

def noteFailure (b : Batch) (number : Nat) : Batch :=
  if b.firstFailure = 0 ∨ number < b.firstFailure then { b with firstFailure := number } else b

def add (A : Arithmetic) (keepGoing : Bool) (b : Batch) (item : Item) : Batch :=
  if b.firstFailure ≠ 0 ∧ !keepGoing then b.push .skipped
  else
    let number := b.slots.length + 1
    let outcome := b.context.compileScoped A b.context.options item.scope item.source true
    let b := { b with context := outcome.context, notes := b.notes ++ outcome.notes }
    match outcome.result with
    | .ok calculation => b.push (.compiled calculation)
    | .error e =>
      (({ b with notes := b.notes ++ [Note.itemFailed number e] }).noteFailure number).push (.failed e)

def retract (e : Error) (b : Batch) (slot : Slot) : Batch :=
  match slot with
  | .compiled calculation =>
    let number := b.slots.length + 1
    ({ b with context := b.context.discard calculation }.noteFailure number).push (.failed e)
  | slot => b.push slot

/-- Makes the code of the batch executable. If that is refused every compiled item has failed. -/
def close (b : Batch) : Batch :=
  match b.context.engine with
  | .soft | .bytecode => b
  | .native foundry =>
    match foundry.pool.freezePending with
    | (.ok (), pool) =>
      { b with context := { b.context with engine := .native { foundry with pool } } }
    | (.error e, pool) =>
      b.slots.foldl (retract e)
        { b with slots := [], context := { b.context with engine := .native { foundry with pool } } }

end Batch

def Context.compileBatch (A : Arithmetic) (c : Context) (keepGoing : Bool) (items : List Item) :
    Batch :=
  (items.foldl (Batch.add A keepGoing) ⟨[], 0, c, []⟩).close

end Reckoner

import Reckoner.Context.Calculation
import Reckoner.Expr.Emit
import Reckoner.Expr.Fold
import Reckoner.Expr.Parse

/-!
Contexts: they compile formulas for one backend and count the calculations that are alive. A native
context keeps the code of its calculations in a page pool.
-/
namespace Reckoner

structure Foundry where
  target : Native.Target
  pool : Pool

/-- What native contexts are made from: the machine, and where its memory comes from. -/
structure Platform where
  target : Native.Target
  pageSize : { n : Nat // 0 < n }
  refuses : Nat → Request → Bool

def Platform.foundry (P : Platform) : Foundry := ⟨P.target, .empty ⟨P.pageSize, P.refuses, []⟩⟩

inductive Engine where
  | soft
  | bytecode
  | native (foundry : Foundry)

def Engine.backend : Engine → Backend
  | soft => .soft
  | bytecode => .bytecode
  | native _ => .native

def Engine.call : Engine → Placement → List Single → Single
  | native foundry, entry, args => foundry.target.execute (foundry.pool.codeAt entry) args
  | soft, _, _ | bytecode, _, _ => .nan

structure Context where
  engine : Engine
  options : Options
  live : Nat

inductive Note where
  | abandoned (backend : Backend) (depth : Nat)
  | itemFailed (item : Nat) (error : Error)
  | droppedLive (live : Nat)
  deriving DecidableEq, Repr

def Note.message : Note → String
  | abandoned backend depth => s!"trace abandon {backend.name} builder at depth {depth}"
  | itemFailed item error => s!"trace batch item {item} failed: {error.text}"
  | droppedLive live => s!"warn context dropped with {live} live calculations"

namespace Context

def ofBackend (P : Platform) (backend : Backend) (options : Options) : Context :=
  match backend with
  | .soft => ⟨.soft, options, 0⟩
  | .bytecode => ⟨.bytecode, options, 0⟩
  | .native => ⟨.native P.foundry, options, 0⟩

def backend (c : Context) : Backend := c.engine.backend

def call (c : Context) : Placement → List Single → Single := c.engine.call

def pool? (c : Context) : Option Pool :=
  match c.engine with
  | .native foundry => some foundry.pool
  | .soft | .bytecode => none

def updatePool (c : Context) (f : Pool → Pool) : Context :=
  match c.engine with
  | .native foundry => { c with engine := .native { foundry with pool := f foundry.pool } }
  | .soft | .bytecode => c

def adopt (c : Context) : Context := { c with live := c.live + 1 }

def discard (c : Context) (calculation : Calculation) : Context :=
  let c := { c with live := c.live - 1 }
  match calculation.page? with
  | some page => c.updatePool (·.release page)
  | none => c

/-- Makes a calculation of a builder that holds exactly one value. Packed code is not executable
before the page in progress is. -/
def finalize (c : Context) (b : Builder) (pack : Bool) : Except Error Calculation × Context :=
  match c.engine, b with
  | .soft, .soft b =>
    match b.finish with
    | .ok p => (.ok (.soft p), c.adopt)
    | .error e => (.error e, c)
  | .bytecode, .bytecode b =>
    match b.finish with
    | .ok p => (.ok (.bytecode p), c.adopt)
    | .error e => (.error e, c)
  | .native foundry, .native b =>
    match b.finish with
    | .error e => (.error e, c)
    | .ok p =>
      match foundry.target.generate p with
      | .error reason => (.error (.internal (.note reason)), c)
      | .ok code =>
        match foundry.pool.place code pack with
        | (.ok placement, pool) =>
          (.ok (.native p placement), { c with engine := .native { foundry with pool } }.adopt)
        | (.error e, pool) => (.error e, { c with engine := .native { foundry with pool } })
  | _, b => (.error (.internal (.mismatch b.backend c.backend)), c)

structure Outcome where
  result : Except Error Calculation
  context : Context
  notes : List Note

def compileScoped (A : Arithmetic) (c : Context) (options : Options) (scope : Scope)
    (source : String) (pack : Bool) : Outcome :=
  let builder := Builder.empty c.backend
  match Expr.parse A scope source with
  | .error e => ⟨.error e, c, [.abandoned builder.backend builder.depth]⟩
  | .ok e =>
    let calls := (e.fold A options).calls A options
    let (result, c) := c.finalize (builder.callAll calls) pack
    ⟨result, c, []⟩

def compile (A : Arithmetic) (c : Context) (names : List String) (source : String) : Outcome :=
  c.compileScoped A c.options (.ofNames names) source false

end Context

structure Item where
  source : String
  scope : Scope
  deriving DecidableEq, Repr

def Context.compileItem (A : Arithmetic) (c : Context) (item : Item) : Context.Outcome :=
  c.compileScoped A c.options item.scope item.source false

end Reckoner

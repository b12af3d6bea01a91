import Reckoner.Bytecode.Program
import Reckoner.Native.Program
import Reckoner.Page.Pool
import Reckoner.Soft.Program

/-!
Compiled formulas, ready to be computed on arguments, and the builders that make them.
-/
namespace Reckoner

inductive Calculation where
  | soft (program : Soft.Program)
  | bytecode (program : Bytecode.Program)
  | native (program : Native.Program) (placement : Placement)
  deriving DecidableEq, Repr

namespace Calculation

def backend : Calculation → Backend
  | soft _ => .soft
  | bytecode _ => .bytecode
  | native _ _ => .native

def numArgs : Calculation → Nat
  | soft p => p.required
  | bytecode p => p.shape.required
  | native p _ => p.required

def stream? : Calculation → Option Stream
  | bytecode p => some p.stream
  | soft _ | native _ _ => none

def page? : Calculation → Option Nat
  | native _ placement => some placement.page
  | soft _ | bytecode _ => none

def ofStream (s : Stream) : Except Error Calculation :=
  match Bytecode.Program.ofStream s with
  | .ok p => .ok (bytecode p)
  | .error e => .error (.stream e)

def runError : RunError → Error
  | .malformed e => .stream e
  | .missing i => .internal (.missingArgument i)

def calculate (A : Arithmetic) (call : Placement → List Single → Single) (args : List Single)
    (c : Calculation) : Except Error Single :=
  if args.length < c.numArgs then .error (.tooFewValues c.numArgs args.length)
  else
    match c with
    | soft p => .ok (p.run A args)
    | bytecode p =>
      match p.run A args with
      | .ok x => .ok x
      | .error e => .error (runError e)
    | native _ entry => .ok (call entry args)

/-- Computes the formula without a check that its arguments are there. Interpreters are given no
more than those. -/
def calculateUnchecked (A : Arithmetic) (call : Placement → List Single → Single)
    (args : List Single) (c : Calculation) : Single :=
  match c with
  | soft p => p.run A (args.take p.required)
  | bytecode p =>
    match p.run A (args.take p.shape.required) with
    | .ok x => x
    | .error _ => .nan
  | native _ entry => call entry args

end Calculation

inductive Builder where
  | soft (builder : Soft.Builder)
  | bytecode (builder : Bytecode.Builder)
  | native (builder : Native.Builder)
  deriving DecidableEq, Repr

namespace Builder

def empty : Backend → Builder
  | .soft => soft .empty
  | .bytecode => bytecode .empty
  | .native => native .empty

def backend : Builder → Backend
  | soft _ => .soft
  | bytecode _ => .bytecode
  | native _ => .native

def depth : Builder → Nat
  | soft b => b.gauge.depth
  | bytecode b => b.gauge.depth
  | native b => b.gauge.depth

def call : Builder → Call → Builder
  | soft b, c => soft (b.call c)
  | bytecode b, c => bytecode (b.call c)
  | native b, c => native (b.call c)

def callAll (b : Builder) (calls : List Call) : Builder := calls.foldl call b

def describe (b : Builder) : String :=
  let backend := match b.backend with
    | .soft => "Soft"
    | .bytecode => "Bytecode"
    | .native => "Native"
  s!"CalculationBuilder \x7b backend: {backend}, depth: {b.depth} \x7d"

end Builder

end Reckoner

import Reckoner.Bytecode.Listing
import Reckoner.Console.Settings
import Reckoner.Context.Basic

/-!
The calculator: one formula a line, computed on the bindings that it was given. All lines are
compiled in one context, and each calculation ends with its line.
-/
namespace Reckoner.Console

structure Output where
  out : String
  err : String
  deriving DecidableEq, Repr

namespace Output

def empty : Output := ⟨"", ""⟩

def append (a b : Output) : Output := ⟨a.out ++ b.out, a.err ++ b.err⟩

instance : Append Output := ⟨append⟩

def line (text : String) : Output := ⟨text ++ "\n", ""⟩

def complaint (text : String) : Output := ⟨"", text ++ "\n"⟩

end Output

structure Calculator where
  context : Context
  names : List String
  values : List Single
  listing : Bool

def Settings.chosen (s : Settings) : Except Backend.Unknown Backend :=
  match s.backend with
  | some name => Backend.ofName name
  | none => .ok .standard

def Settings.calculator (P : Platform) (s : Settings) : Except Backend.Unknown Calculator := do
  let backend ← s.chosen
  let options := if s.noOptimize then Options.unoptimized else Options.optimized
  return ⟨.ofBackend P backend options, s.bindings.map Binding.name, s.bindings.map Binding.value,
    s.listing⟩

def resultPlaces : Nat := 6

namespace Calculator

def complain (e : Error) : Output := .complaint ("Calculation error: " ++ e.message)

def listingOf (c : Calculator) (calculation : Calculation) : Output :=
  match if c.listing then calculation.stream? else none with
  | some stream => ⟨"", stream.listing⟩
  | none => .empty

def feed (A : Arithmetic) (c : Calculator) (line : String) : Output × Calculator :=
  if line.toList.all Text.isBlank then (.empty, c)
  else
    let outcome := c.context.compile A c.names line
    match outcome.result with
    | .error e => (complain e, { c with context := outcome.context })
    | .ok calculation =>
      let result :=
        match calculation.calculate A outcome.context.call c.values with
        | .ok x => .line (line ++ " = " ++ x.fixed resultPlaces)
        | .error e => complain e
      (c.listingOf calculation ++ result,
        { c with context := outcome.context.discard calculation })

def feedAll (A : Arithmetic) : Calculator → List String → Output × Calculator
  | c, [] => (.empty, c)
  | c, line :: rest =>
    let (now, c) := c.feed A line
    let (later, c) := feedAll A c rest
    (now ++ later, c)

end Calculator

/-- The lines of an input. A line ends with a line feed or with a carriage return and a line feed; the
last line need not end. -/
def lines : List UInt8 → List (List UInt8)
  | [] => []
  | 10 :: bs | 13 :: 10 :: bs => [] :: lines bs
  | b :: bs =>
    match lines bs with
    | [] => [[b]]
    | line :: rest => (b :: line) :: rest

def decodeLine (bytes : List UInt8) : Option String := String.fromUTF8? ⟨bytes.toArray⟩

structure Report where
  code : Nat
  output : Output
  deriving DecidableEq, Repr

def readError : String := "Read error: stream did not contain valid UTF-8"

def readable : List (List UInt8) → List String × Bool
  | [] => ([], true)
  | bytes :: rest =>
    match decodeLine bytes with
    | none => ([], false)
    | some line =>
      let (texts, all) := readable rest
      (line :: texts, all)

/-- The calculator for a command line, or what is reported instead. How a command line is read is up to
the reader. -/
def start (P : Platform) (read : List String → Except Report Settings) (arguments : List String) :
    Except Report Calculator :=
  match read arguments with
  | .error report => .error report
  | .ok settings =>
    match settings.calculator P with
    | .error u => .error ⟨1, .complaint u.message⟩
    | .ok calculator => .ok calculator

def run (A : Arithmetic) (P : Platform) (read : List String → Except Report Settings)
    (arguments : List String) (input : List UInt8) : Report :=
  match start P read arguments with
  | .error report => report
  | .ok calculator =>
    let (texts, all) := readable (lines input)
    let output := (calculator.feedAll A texts).1
    if all then ⟨0, output⟩ else ⟨1, output ++ .complaint readError⟩

end Reckoner.Console

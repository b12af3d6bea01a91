import Reckoner.Console.Arguments
import Reckoner.Native.Host

/-!
The command line program: it answers each line as soon as it is read.
-/
namespace Reckoner.Console

def Output.emit (o : Output) : IO Unit := do
  IO.print o.out
  IO.eprint o.err
  (← IO.getStdout).flush

partial def nextLine (input : IO.FS.Stream) (line : Array UInt8) : IO (List UInt8) := do
  match (← input.read 1).toList with
  | [] => return line.toList
  | b :: _ => if b = 10 then return (line.push b).toList else nextLine input (line.push b)

/-- Answers lines until the input ends or is not text; gives the exit code. -/
partial def serve (input : IO.FS.Stream) (calculator : Calculator) : IO UInt32 := do
  match lines (← nextLine input #[]) with
  | [] => return 0
  | bytes :: _ =>
    match decodeLine bytes with
    | none =>
      (Output.complaint readError).emit
      return 1
    | some line =>
      let (output, calculator) := calculator.feed .hardware line
      output.emit
      serve input calculator

end Reckoner.Console

open Reckoner.Console in
def main (arguments : List String) : IO UInt32 := do
  match start .host Arguments.readSettings arguments with
  | .error report =>
    report.output.emit
    return report.code.toUInt32
  | .ok calculator => serve (← IO.getStdin) calculator

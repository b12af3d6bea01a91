import Reckoner.Backend
import Reckoner.Decimal.Reader
import Reckoner.Text.Blank

/-!
What a run of the calculator is told: the bindings of names to values, and how to compile.
-/
namespace Reckoner.Console

structure Binding where
  name : String
  value : Single
  deriving DecidableEq, Repr

inductive BindingError where
  | noValue (text : String)
  | badValue (name : String) (error : NumberError)
  deriving DecidableEq, Repr

def BindingError.message : BindingError → String
  | noValue text => s!"expected name=value, got '{text}'"
  | badValue name error => s!"bad value for '{name}': {error.text}"

/-- Reads `name=value`; white space around either does not count. -/
def Binding.read (text : String) : Except BindingError Binding :=
  let name := text.toList.takeWhile (· ≠ '=')
  match text.toList.dropWhile (· ≠ '=') with
  | [] => .error (.noValue text)
  | _ :: value =>
    match Single.read (Text.trim value) with
    | .ok x => .ok ⟨String.ofList (Text.trim name), x⟩
    | .error e => .error (.badValue (String.ofList name) e)

structure Settings where
  bindings : List Binding
  backend : Option String
  noOptimize : Bool
  listing : Bool
  deriving DecidableEq, Repr

end Reckoner.Console

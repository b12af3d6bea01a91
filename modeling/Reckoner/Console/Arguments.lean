import Reckoner.Console.Run

/-!
The command line: bindings of names to values, and options among them. Bindings that follow each
other are looked at together, when an option or the end comes, and so is the value of an option. The
calculator itself takes settings from any reader.
-/
namespace Reckoner.Console

inductive UsageError where
  | invalidBinding (text : String) (error : BindingError)
  | unexpectedArgument (argument : String)
  | unexpectedValue (option value : String)
  | valueRequired (option : String)
  | repeated (option : String)
  deriving DecidableEq, Repr

def UsageError.message : UsageError → String
  | invalidBinding text error => s!"error: invalid value '{text}' for '[BINDINGS]...': {error.message}"
  | unexpectedArgument argument => s!"error: unexpected argument '{argument}' found"
  | unexpectedValue option value =>
    s!"error: unexpected value '{value}' for '{option}' found; no more were expected"
  | valueRequired option => s!"error: a value is required for '{option}' but none was supplied"
  | repeated option => s!"error: the argument '{option}' cannot be used multiple times"

inductive Stop where
  | usage (error : UsageError)
  | help
  deriving DecidableEq, Repr

def Settings.initial : Settings := ⟨[], none, false, false⟩

/-- Arguments that have been read and not yet looked at. -/
inductive Pending where
  | nothing
  | bindings (texts : List String)
  | backend (value : Option String)
  deriving DecidableEq, Repr

structure Arguments where
  settings : Settings
  pending : Pending
  verbatim : Bool
  deriving DecidableEq, Repr

def backendOption : String := "--backend <BACKEND>"

def Settings.bind : Settings → List String → Except UsageError Settings
  | s, [] => .ok s
  | s, text :: rest =>
    match Binding.read text with
    | .ok b => bind { s with bindings := s.bindings ++ [b] } rest
    | .error e => .error (.invalidBinding text e)

def Settings.chooseBackend (s : Settings) (name : String) : Except UsageError Settings :=
  match s.backend with
  | none => .ok { s with backend := some name }
  | some _ => .error (.repeated backendOption)

namespace Arguments

def start : Arguments := ⟨.initial, .nothing, false⟩

def settle (a : Arguments) : Except UsageError Settings :=
  match a.pending with
  | .nothing => .ok a.settings
  | .bindings texts => a.settings.bind texts
  | .backend none => .error (.valueRequired backendOption)
  | .backend (some name) => a.settings.chooseBackend name

def addBinding (a : Arguments) (text : String) : Except UsageError Arguments :=
  match a.pending with
  | .bindings texts => .ok { a with pending := .bindings (texts ++ [text]) }
  | _ => do return { a with settings := ← a.settle, pending := .bindings [text] }

def setFlag (a : Arguments) (option : String) (value : Option String) (isSet : Settings → Bool)
    (set : Settings → Settings) : Except UsageError Arguments :=
  match value with
  | some value => .error (.unexpectedValue option value)
  | none => do
    let s ← a.settle
    if isSet s then .error (.repeated option)
    else return { a with settings := set s, pending := .nothing }

def setBackend (a : Arguments) (value : Option String) : Except UsageError Arguments := do
  let s ← a.settle
  match value with
  | some name => return { a with settings := ← s.chooseBackend name, pending := .nothing }
  | none => return { a with settings := s, pending := .backend none }

def splitOption (body : List Char) : String × Option String :=
  match body.dropWhile (· ≠ '=') with
  | [] => (String.ofList body, none)
  | _ :: value => (String.ofList (body.takeWhile (· ≠ '=')), some (String.ofList value))

def askHelp (a : Arguments) : Except Stop Arguments :=
  match a.settle with
  | .ok _ => .error .help
  | .error e => .error (.usage e)

def addOption (a : Arguments) (body : List Char) : Except Stop Arguments :=
  let (name, value) := splitOption body
  if name = "backend" then (a.setBackend value).mapError .usage
  else if name = "no-optimize" then
    (a.setFlag "--no-optimize" value (·.noOptimize) ({ · with noOptimize := true })).mapError .usage
  else if name = "disasm" then
    (a.setFlag "--disasm" value (·.listing) ({ · with listing := true })).mapError .usage
  else if name = "help" then
    match value with
    | some value => .error (.usage (.unexpectedValue "--help" value))
    | none => a.askHelp
  else .error (.usage (.unexpectedArgument ("--" ++ name)))

def add (a : Arguments) (text : String) : Except Stop Arguments :=
  if a.verbatim then (a.addBinding text).mapError .usage
  else
    match text.toList with
    | ['-', '-'] => .ok { a with verbatim := true }
    | '-' :: '-' :: body => a.addOption body
    | '-' :: c :: _ =>
      if c = 'h' then a.askHelp else .error (.usage (.unexpectedArgument (String.ofList ['-', c])))
    | _ =>
      match a.pending with
      | .backend none => .ok { a with pending := .backend (some text) }
      | _ => (a.addBinding text).mapError .usage

def read (texts : List String) : Except Stop Settings :=
  match texts.foldlM add start with
  | .ok a => a.settle.mapError .usage
  | .error e => .error e

def help : String :=
  "Compile and evaluate numeric expressions read from stdin\n\n" ++
    "Usage: reckoner [OPTIONS] [BINDINGS]...\n"

def readSettings (texts : List String) : Except Report Settings :=
  match read texts with
  | .error .help => .error ⟨0, ⟨help, ""⟩⟩
  | .error (.usage e) => .error ⟨2, .complaint e.message⟩
  | .ok s => .ok s

end Arguments

end Reckoner.Console

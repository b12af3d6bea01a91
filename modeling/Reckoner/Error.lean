import Reckoner.Backend
import Reckoner.Code.Instr
import Reckoner.Page.Request
import Reckoner.Text.Bytes
import Reckoner.Text.Hex

/-!
Everything that can go wrong, as causes, and the wording of each in one place. Messages handed to
users are bounded in length (`Error.message`).
-/
namespace Reckoner

inductive SyntaxCause where
  | unexpectedCharacter (c : Char)
  | digitsAfterDollar
  | digitsAfterPoint
  | numberAfterSign
  | openingExpected
  | closingExpected
  | operandExpected
  | unexpectedEnd
  | unmatchedClosing
  | trailingInput
  | note (text : String)
  deriving DecidableEq, Repr

def SyntaxCause.text : SyntaxCause → String
  | unexpectedCharacter c => "unexpected character '" ++ Text.visible c ++ "'"
  | digitsAfterDollar => "expected digits after '$'"
  | digitsAfterPoint => "expected digits after '.'"
  | numberAfterSign => "expected a number after sign"
  | openingExpected => "expected '('"
  | closingExpected => "expected ')'"
  | operandExpected => "expected number, argument, builtin or '('"
  | unexpectedEnd => "unexpected end of expression"
  | unmatchedClosing => "unmatched ')'"
  | trailingInput => "unexpected trailing input"
  | note text => text

inductive Subtyped where
  | unary
  | binary
  deriving DecidableEq, Repr

def Subtyped.name : Subtyped → String
  | unary => "unary"
  | binary => "binary"

inductive StreamError where
  | unknownClass (nibble : UInt8) (offset : Nat)
  | unknownSubtype (kind : Subtyped) (code : UInt8) (offset : Nat)
  | truncated (offset needed found : Nat)
  | underflow (offset : Nat)
  | finalDepth (depth : Nat)
  deriving DecidableEq, Repr

def StreamError.text : StreamError → String
  | unknownClass nibble offset =>
    "unknown op class 0x" ++ Text.hex 1 nibble.toNat ++ s!" at byte {offset}"
  | unknownSubtype kind code offset => s!"unknown {kind.name} subtype {code} at byte {offset}"
  | truncated offset needed found =>
    s!"truncated payload at byte {offset}: need {needed} bytes, have {found}"
  | underflow offset => s!"stack underflow at byte {offset}"
  | finalDepth depth => s!"stream leaves {depth} values on the stack, expected exactly one"

inductive AllocationCause where
  | refused (kind : RequestKind)
  | note (text : String)
  deriving DecidableEq, Repr

def AllocationCause.text : AllocationCause → String
  | refused kind => s!"{kind.name} refused"
  | note text => text

inductive InternalCause where
  | shortage (instr : Instr) (found : Nat)
  | leftover (depth : Nat)
  | mismatch (builder context : Backend)
  | missingArgument (index : UInt16)
  | note (text : String)
  deriving DecidableEq, Repr

def InternalCause.text : InternalCause → String
  | shortage instr found => s!"{instr.name} needs {instr.inputs} stack values, found {found}"
  | leftover depth => s!"finalize with {depth} values on the stack"
  | mismatch builder context =>
    s!"{builder.name} builder finalized by a {context.name} context"
  | missingArgument index => s!"argument {index} is missing"
  | note text => text

inductive Error where
  | syntaxError (offset : Nat) (cause : SyntaxCause)
  | argNumber (index : UInt64) (count : Nat)
  | argName (name : String)
  | allocation (cause : AllocationCause)
  | unsupported (text : String)
  | stream (error : StreamError)
  | tooFewValues (expected got : Nat)
  | foreignCalculation
  | internal (cause : InternalCause)
  deriving DecidableEq, Repr

inductive ErrorKind where
  | syntaxError
  | argNumber
  | argName
  | allocation
  | internal
  deriving DecidableEq, Repr

namespace Error

def text : Error → String
  | syntaxError offset cause => s!"Syntax error at offset {offset}: {cause.text}"
  | argNumber index count => s!"Arg {index} is over the maximum of {count}"
  | argName name => s!"Invalid argument name {name}"
  | allocation cause => s!"could not allocate executable memory: {cause.text}"
  | unsupported text => s!"backend unavailable: {text}"
  | stream error => s!"malformed bytecode: {error.text}"
  | tooFewValues expected got =>
    s!"values length mismatch: expected at least {expected}, got {got}"
  | foreignCalculation => "calculation belongs to a different context"
  | internal cause => s!"jit internal error: {cause.text}"

def messageLimit : Nat := 255

def message (e : Error) : String := Text.clip messageLimit e.text

def kind : Error → ErrorKind
  | syntaxError _ _ => .syntaxError
  | argNumber _ _ => .argNumber
  | argName _ => .argName
  | allocation _ => .allocation
  | unsupported _ | stream _ | tooFewValues _ _ | foreignCalculation | internal _ => .internal

/-- Whether another formula could mend the error: those are the errors of the formula itself. -/
def isRecoverable (e : Error) : Bool :=
  match e.kind with
  | .syntaxError | .argNumber | .argName => true
  | .allocation | .internal => false

end Error

end Reckoner

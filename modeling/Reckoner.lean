import Reckoner.Expr.Eval
import Reckoner.Expr.Grammar
import Reckoner.Main
import Reckoner.Page.Action
import Reckoner.Session.Step
import Reckoner.Proofs.Bytecode.RoundTrip
import Reckoner.Proofs.Code.Agreement
import Reckoner.Proofs.Expr.Emission
import Reckoner.Proofs.Context.Compilation
import Reckoner.Proofs.Page.Accounting
import Reckoner.Proofs.Page.Tenancy
import Reckoner.Bytecode.Machine
import Reckoner.Proofs.Bytecode.Decoding
import Reckoner.Proofs.Bytecode.Validation
import Reckoner.Proofs.Expr.Recognition
import Reckoner.Proofs.Context.Ownership
import Reckoner.Proofs.Session.Balance
import Reckoner.Proofs.Page.Protection
import Reckoner.Proofs.Context.Backends
import Reckoner.Proofs.Expr.Diagnosis
import Reckoner.Proofs.Context.Containment
import Reckoner.Proofs.Context.MixedPrecision
import Reckoner.Proofs.Context.Independence
import Reckoner.Proofs.Context.Batching
import Reckoner.Proofs.Context.Reloading
import Reckoner.Proofs.Page.Frugality
import Reckoner.Proofs.Context.Runs
import Reckoner.Proofs.Page.Rollback
import Reckoner.Proofs.Session.Custody
import Reckoner.Proofs.Expr.Redexes
import Reckoner.Proofs.Context.Arity
import Reckoner.Proofs.Context.Reporting
import Reckoner.Proofs.Session.Retraction
import Reckoner.Token.Lexer
import Reckoner.Proofs.Context.Surplus
import Reckoner.Proofs.Text.Encoding
import Reckoner.Proofs.Text.Clipping
import Reckoner.Proofs.Token.Bytewise
import Reckoner.Proofs.Token.Joining
import Reckoner.Expr.Written
import Reckoner.Proofs.Expr.Printing
import Reckoner.Proofs.Expr.Viability
import Reckoner.Proofs.Text.Words
import Reckoner.Proofs.Expr.Respacing
import Reckoner.Proofs.Token.Digits
import Reckoner.Proofs.Token.Accumulation
import Reckoner.Proofs.Expr.Positions
import Reckoner.Proofs.Token.Numerals
import Reckoner.Proofs.Console.Wording
import Reckoner.Proofs.Console.Input
import Reckoner.Proofs.Console.Linewise

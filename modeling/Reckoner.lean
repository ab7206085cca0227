import Reckoner.Main
import Reckoner.Service.Concurrent.Crowd
import Reckoner.Service.Concurrent.Workshop
import Reckoner.Proofs.Grammar.RoundTrip
import Reckoner.Proofs.Validation.Whitelist
import Reckoner.Proofs.Engine.Simplification
import Reckoner.Proofs.Memory.Substitution
import Reckoner.Proofs.Service.Tidiness
import Reckoner.Proofs.Service.Outcomes
import Reckoner.Proofs.Service.Sessions
import Reckoner.Proofs.Service.Batches
import Reckoner.Proofs.Service.Concurrent.Admission
import Reckoner.Proofs.Service.Concurrent.Engines
import Reckoner.Proofs.Service.Concurrent.Alone
import Reckoner.Proofs.Validation.Symbols
import Reckoner.Proofs.Grammar.Rounding
import Reckoner.Proofs.Validation.Blanks
import Reckoner.Proofs.Decimal.Canonical
import Reckoner.Proofs.Expr.Regrouping
import Reckoner.Proofs.Expr.Steadiness
import Reckoner.Proofs.Grammar.Canonical
import Reckoner.Proofs.Grammar.Legibility
import Reckoner.Proofs.Fraction.Calculation
import Reckoner.Proofs.Memory.Brackets
import Reckoner.Proofs.Service.Keys
import Reckoner.Proofs.Service.Spelling
import Reckoner.Proofs.Service.Storage
import Reckoner.Proofs.Record.Encoding
import Reckoner.Proofs.Engine.Reduction
import Reckoner.Proofs.Grammar.Multiplication
import Reckoner.Proofs.Engine.Comparison
import Reckoner.Proofs.Engine.Approximation
import Reckoner.Proofs.Memory.Words
import Reckoner.Proofs.Service.Agreement
import Reckoner.Proofs.Service.Captures
import Reckoner.Proofs.Memory.Unbound
import Reckoner.Proofs.Service.Unbound
import Reckoner.Proofs.Engine.Calls
import Reckoner.Proofs.Expr.Renaming
import Reckoner.Proofs.Grammar.Rebracketing
import Reckoner.Proofs.Memory.Constants
import Reckoner.Proofs.Grammar.Cuts
import Reckoner.Proofs.Grammar.Enclosure
import Reckoner.Proofs.Memory.Bare
import Reckoner.Proofs.Memory.Values
import Reckoner.Proofs.Expr.Binding
import Reckoner.Proofs.Service.Tables
import Reckoner.Proofs.Shape.Data
import Reckoner.Proofs.Service.Accounts
import Reckoner.Proofs.Expr.Depth
import Reckoner.Proofs.Formula.Grouping
import Reckoner.Proofs.Text.Runs

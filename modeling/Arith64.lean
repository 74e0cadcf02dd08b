import Arith64.Expr.Value
import Arith64.Expr.Walk
import Arith64.Main
import Arith64.Proofs.Decimal
import Arith64.Proofs.Grammar
import Arith64.Proofs.Reading
import Arith64.Proofs.Continuation
import Arith64.Proofs.FirstError
import Arith64.Proofs.Scanning
import Arith64.Proofs.RoundTrip
import Arith64.Proofs.Machine
import Arith64.Proofs.Meaning
import Arith64.Proofs.TargetText
import Arith64.Proofs.Postorder
import Arith64.Proofs.ProgramValue
import Arith64.Proofs.Picks
import Arith64.Proofs.Drawing
import Arith64.Proofs.Searching
import Arith64.Proofs.Places
import Arith64.Proofs.Ring
import Arith64.Proofs.Emission
import Arith64.Proofs.Files
import Arith64.Proofs.Runs
import Arith64.Proofs.Faults
import Arith64.Proofs.Accounting
import Arith64.Proofs.Attempts
import Arith64.Proofs.Utf8
import Arith64.Proofs.LongestMatch
import Arith64.Proofs.Obstacles
import Arith64.Proofs.NestingLimit
import Arith64.Proofs.Blanks
import Arith64.Proofs.Budgets
import Arith64.Proofs.Products
import Arith64.Proofs.Lowering
import Arith64.Proofs.Occurrences
import Arith64.Proofs.Alignment
import Arith64.Proofs.Division
import Arith64.Proofs.Slots
import Arith64.Proofs.Substitution
import Arith64.Proofs.Settings
import Arith64.Proofs.JsonText
import Arith64.Proofs.JsonTokens
import Arith64.Proofs.JsonReading
import Arith64.Proofs.OptionKeys
import Arith64.Proofs.Cursor
import Arith64.Proofs.Progress
import Arith64.Proofs.Levels
import Arith64.Proofs.Walks

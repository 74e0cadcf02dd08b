import Arith64.Expr.Basic
import Arith64.Text.Decimal

/-!
# The target dialect

The text handed to the program under test: infix operators, every binary node
in parentheses, literals as plain decimals. A negated literal and a negative
literal can look alike here, so this text is written but never read.
-/

namespace Arith64

def Expr.target : Expr → String
  | .literal v => decimalWord v
  | .negate e => "-" ++ e.target
  | .binary op l r => "(" ++ l.target ++ " " ++ op.symbol ++ " " ++ r.target ++ ")"
  | .group e => "(" ++ e.target ++ ")"

end Arith64

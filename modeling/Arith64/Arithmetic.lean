import Arith64.Expr.Basic

/-!
# Arithmetic on 64-bit words

Sums, differences, products and negations wrap around. Division goes toward
zero and the remainder has the sign of the dividend, so the smallest word
divided by minus one is itself with remainder zero. A zero divisor is a fault,
never a value.
-/

namespace Arith64

inductive Fault where
  | divisionByZero
  | remainderByZero
  deriving DecidableEq

def Fault.message : Fault → String
  | .divisionByZero => "division by zero"
  | .remainderByZero => "remainder by zero"

/-- The upper 64 bits of the exact 128-bit product, rounded down. -/
def mulHigh (a b : Int64) : Int64 := Int64.ofInt (a.toInt * b.toInt / (UInt64.size : Int))

def BinOp.apply : BinOp → Int64 → Int64 → Except Fault Int64
  | .add, a, b => .ok (a + b)
  | .sub, a, b => .ok (a - b)
  | .mul, a, b => .ok (a * b)
  | .div, a, b => if b = 0 then .error .divisionByZero else .ok (a / b)
  | .rem, a, b => if b = 0 then .error .remainderByZero else .ok (a % b)
  | .highMul, a, b => .ok (mulHigh a b)

end Arith64

import Arith64.Expr.Basic
import Arith64.Random.Pick

/-!
# Random expressions

Every node draws a number from zero to one first, and its shape is the span of
that interval the number falls into. The budget of depth goes down by one at
each level. A node without budget is a literal of the small range, but draws
its number like any other.
-/

namespace Arith64

/-! ## Literals -/

/-- The range that literals above the depth floor come from. -/
inductive LiteralRange where
  | small
  | full
  deriving DecidableEq

namespace LiteralRange

/-- The farthest that a small literal lies from zero. -/
def smallBound : Int64 := 1000

def name : LiteralRange → String
  | small => "small"
  | full => "full"

def all : List LiteralRange := [small, full]

def low : LiteralRange → Int64
  | small => -smallBound
  | full => Int64.minValue

def high : LiteralRange → Int64
  | small => smallBound
  | full => Int64.maxValue

def contains (range : LiteralRange) (v : Int64) : Bool := range.low ≤ v && v ≤ range.high

/-- Draws a word of a range. The full range takes a word as it comes, read as signed. -/
def draw {σ : Type} [RandomSource σ] : LiteralRange → StateM σ Int64
  | small => do
    let n ← pick64 (2 * smallBound.toInt.toNat + 1) (Nat.succ_pos _)
    return Int64.ofInt (n.val - smallBound.toInt)
  | full => UInt64.toInt64 <$> draw64

end LiteralRange

/-! ## Operators -/

/-- What an operator is drawn from. Sums are twice as likely as anything else. -/
def operatorUrn : Array BinOp := #[.add, .mul, .highMul, .div, .rem, .add, .sub]

def drawOperator {σ : Type} [RandomSource σ] : StateM σ BinOp := do
  let index ← pick32 operatorUrn.size (by decide)
  return operatorUrn[index]

/-! ## Shapes -/

/-- A bound between two shapes: the double-precision number nearest to some tenths, in units of
`2 ^ -54`. -/
structure ShapeBound where
  tenths : Nat
  units : Nat
  nearest : tenths <<< 54 ≤ 10 * units + 5 ∧ 10 * units ≤ tenths <<< 54 + 5 := by decide

namespace ShapeBound

/-- Numbers below 0.2 make a literal. -/
def literal : ShapeBound := { tenths := 2, units := 3602879701896397 }

/-- Numbers from there on below 0.3 make a negation. -/
def negate : ShapeBound := { tenths := 3, units := 5404319552844595 }

/-- Numbers from there on below 0.9 make a binary node, and all others a group. -/
def binary : ShapeBound := { tenths := 9, units := 16212958658533786 }

/-- Whether a number of parts of `2 ^ -53` lies below the bound. -/
def above (bound : ShapeBound) (parts : Nat) : Bool := 2 * parts < bound.units

end ShapeBound

inductive Shape where
  | literal
  | negate
  | binary
  | group
  deriving DecidableEq

/-- The shape that a number of parts of `2 ^ -53` stands for. -/
def Shape.ofUnit (parts : Nat) : Shape :=
  if ShapeBound.literal.above parts then literal
  else if ShapeBound.negate.above parts then negate
  else if ShapeBound.binary.above parts then binary
  else group

/-! ## Trees -/

/-- Draws an expression of at most some depth. -/
def Expr.draw {σ : Type} [RandomSource σ] (range : LiteralRange) : (depth : Nat) → StateM σ Expr
  | 0 => do
    let _ ← drawUnit
    return .literal (← LiteralRange.small.draw)
  | depth + 1 => do
    match Shape.ofUnit (← drawUnit) with
    | .literal => return .literal (← range.draw)
    | .negate => return .negate (← Expr.draw range depth)
    | .binary =>
      let left ← Expr.draw range depth
      let op ← drawOperator
      let right ← Expr.draw range depth
      return .binary op left right
    | .group => return .group (← Expr.draw range depth)

end Arith64

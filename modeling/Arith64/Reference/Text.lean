import Arith64.Expr.Basic
import Arith64.Text.Decimal

/-!
# The reference dialect, written

The text that carries its own semantics: every literal is marked as a 64-bit
constant, and the operators that plain integers would treat differently are
calls. It has the shape of the tree node for node, so it can be read back.
-/

namespace Arith64

/-- The name of the call that stands for an operator, or nothing for one written infix. -/
def BinOp.callName? : BinOp → Option String
  | .add | .sub | .mul => none
  | .div => some "div"
  | .rem => some "fmod"
  | .highMul => some "mulhi"

def BinOp.ofCallName? (name : String) : Option BinOp :=
  BinOp.all.find? fun op => op.callName? == some name

def Expr.reference : Expr → String
  | .literal v => "i64(" ++ decimalWord v ++ ")"
  | .negate e => "-" ++ e.reference
  | .binary op l r =>
    match op.callName? with
    | some name => name ++ "(" ++ l.reference ++ ", " ++ r.reference ++ ")"
    | none => "(" ++ l.reference ++ " " ++ op.symbol ++ " " ++ r.reference ++ ")"
  | .group e => "(" ++ e.reference ++ ")"

end Arith64

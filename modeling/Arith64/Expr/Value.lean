import Arith64.Arithmetic

/-!
# The value of an expression

The meaning of a tree, read straight off its shape: the left operand first,
then the right one, then the operator. The first fault met is the answer.
-/

namespace Arith64.Expr

/-- The value of an expression, or the first fault on the way to it. -/
def value : Expr → Except Fault Int64
  | literal v => .ok v
  | negate e =>
    match e.value with
    | .ok v => .ok (-v)
    | .error fault => .error fault
  | binary op l r =>
    match l.value with
    | .error fault => .error fault
    | .ok a =>
      match r.value with
      | .error fault => .error fault
      | .ok b => op.apply a b
  | group e => e.value

@[simp] theorem value_literal (v : Int64) : (literal v).value = .ok v := rfl

@[simp] theorem value_group (e : Expr) : (group e).value = e.value := rfl

end Arith64.Expr

import Arith64.Arithmetic

/-!
# Postfix programs

An expression becomes a list of instructions for a stack machine: the left
operand, the right operand, then the operator. Literals move into a table of
constants, one entry for each, and grouping leaves no trace.
-/

namespace Arith64

inductive Instr where
  /-- Pushes the constant with this place in the table. -/
  | push (index : UInt32)
  | negate
  /-- Puts the result of an operator in the place of its two operands. -/
  | operate (op : BinOp)
  deriving DecidableEq

/-- Instructions and the constants they name. -/
structure Program where
  code : List Instr
  constants : Array Int64
  deriving DecidableEq

namespace Expr

/-- The instructions of an expression, put in front of others. Its first literal is constant
number `next`. -/
def codeOnto (next : Nat) (behind : List Instr) : Expr → List Instr
  | literal _ => .push (UInt32.ofNat next) :: behind
  | negate e => e.codeOnto next (.negate :: behind)
  | binary op l r =>
    l.codeOnto next (r.codeOnto (next + l.literalCount) (.operate op :: behind))
  | group e => e.codeOnto next behind

def code (e : Expr) : List Instr := e.codeOnto 0 []

theorem codeOnto_append (e : Expr) (next : Nat) (behind more : List Instr) :
    e.codeOnto next behind ++ more = e.codeOnto next (behind ++ more) := by
  induction e generalizing next behind with
  | literal v => rfl
  | negate e ih => exact ih next (.negate :: behind)
  | binary op l r ihl ihr =>
    simp only [codeOnto]
    rw [ihl, ihr, List.cons_append]
  | group e ih => exact ih next behind

def program (e : Expr) : Program := ⟨e.code, e.literals.toArray⟩

end Expr

end Arith64

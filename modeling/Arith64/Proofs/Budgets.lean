import Mathlib
import Arith64.Proofs.Drawing

/-!
# Budgets that are not used up

A budget of depth counts only where an expression reaches its floor. One that
stays above the floor comes out of every larger budget as well, from the same
words, and the source is left behind them in each case.
-/

namespace Arith64.Expr

section Node

variable {σ : Type} [RandomSource σ]

/-- Draws a node of some shape above the floor. Its operands are drawn by `operand`. -/
def drawShaped (range : LiteralRange) (operand : StateM σ Expr) : Shape → StateM σ Expr
  | .literal => return .literal (← range.draw)
  | .negate => return .negate (← operand)
  | .binary => do
    let left ← operand
    let op ← drawOperator
    let right ← operand
    return .binary op left right
  | .group => return .group (← operand)

theorem draw_succ (range : LiteralRange) (budget : Nat) (s : σ) :
    Expr.draw range (budget + 1) s =
      drawShaped range (Expr.draw range budget) (Shape.ofUnit (drawUnit s).1) (drawUnit s).2 := by
  rw [Expr.draw, draw_bind]
  cases Shape.ofUnit (drawUnit s).1 <;> rfl

variable {range : LiteralRange} {x y : StateM σ Expr} {level : Nat} {shape : Shape} {s : σ}

theorem drawShaped_eq (hsame : ∀ t, (x t).1.depth < level → y t = x t)
    (hdepth : (drawShaped range x shape s).1.depth < level + 1) :
    drawShaped range y shape s = drawShaped range x shape s := by
  cases shape with
  | literal => rfl
  | negate =>
    simp only [drawShaped, draw_bind, draw_pure, depth] at hdepth ⊢
    rw [hsame s (by omega)]
  | binary =>
    simp only [drawShaped, draw_bind, draw_pure, depth] at hdepth ⊢
    -- The right operand is drawn from what the left one leaves, so the left one comes first.
    rw [hsame s (by omega), hsame _ (by omega)]
  | group =>
    simp only [drawShaped, draw_bind, draw_pure, depth] at hdepth ⊢
    rw [hsame s (by omega)]

end Node

/-- An expression that stays above the floor of its budget is drawn from every larger budget, and
the source is left in the same state. -/
theorem draw_of_depth_lt {σ : Type} [RandomSource σ] (range : LiteralRange) (budget larger : Nat)
    (s : σ) (hdepth : (Expr.draw range budget s).1.depth < budget) (hle : budget ≤ larger) :
    Expr.draw range larger s = Expr.draw range budget s := by
  induction budget generalizing larger s with
  | zero => exact absurd hdepth (Nat.not_lt_zero _)
  | succ budget ih =>
    obtain ⟨larger, rfl⟩ : ∃ n, larger = n + 1 := ⟨larger - 1, by omega⟩
    rw [draw_succ] at hdepth
    rw [draw_succ, draw_succ]
    refine drawShaped_eq ?_ hdepth
    intro t ht
    exact ih larger t ht (by omega)

/-- Words for the smallest word plus the negation of seven, and one more. -/
def shallowScript : Script :=
  ⟨[0x8000000000000000, 0, 0x8000000000000000, 0, 0x4000000000000000, 0, 7, 9]⟩

/-- A budget of three is not used up, so it can as well be 32. One of two is, and the literal on its
floor comes from the small range. -/
theorem draw_shallow_script :
    let e := binary .add (literal Int64.minValue) (negate (literal 7))
    Expr.draw .full 3 shallowScript = (e, ⟨[9]⟩) ∧ Expr.draw .full 32 shallowScript = (e, ⟨[9]⟩) ∧
      (Expr.draw .full 2 shallowScript).1 ≠ e := by
  intro e
  have hdraw : Expr.draw .full 3 shallowScript = (e, ⟨[9]⟩) := by cbv
  have hfloor : (Expr.draw .full 2 shallowScript).1 =
      binary .add (literal Int64.minValue) (negate (literal (-1000))) := by cbv
  have hdepth : (Expr.draw .full 3 shallowScript).1.depth < 3 := by
    rw [hdraw]
    decide
  refine ⟨hdraw, ?_, by rw [hfloor]; decide⟩
  rw [draw_of_depth_lt .full 3 32 shallowScript hdepth (by omega), hdraw]

end Arith64.Expr

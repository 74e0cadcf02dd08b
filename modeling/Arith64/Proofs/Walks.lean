import Mathlib
import Arith64.Expr.Walk
import Arith64.Proofs.Machine

/-!
# What a walk tells

A walk shows how many operands each node has, so it ends where the expression
does: no walk is the beginning of another one. Its labels hold the literals and
the operators, and there is always one literal more than there are operators.
-/

namespace Arith64

/-! ## What labels hold -/

/-- The value at a node, if it is a literal. -/
def Label.literal? : Label → Option Int64
  | .literal v => some v
  | .negate | .operator _ | .group => none

/-- The operator at a node, if it is between two operands. -/
def Label.operator? : Label → Option BinOp
  | .operator op => some op
  | .literal _ | .negate | .group => none

namespace Expr

theorem filterMap_literal?_walk (e : Expr) : e.walk.filterMap Label.literal? = e.literals := by
  induction e with
  | literal v => rfl
  | negate e ih => exact ih
  | binary op l r ihl ihr => simp [walk, List.filterMap_cons, Label.literal?, literals, ihl, ihr]
  | group e ih => exact ih

theorem filterMap_operator?_walk (e : Expr) :
    e.walk.filterMap Label.operator? = e.operators := by
  induction e with
  | literal v => rfl
  | negate e ih => exact ih
  | binary op l r ihl ihr => simp [walk, Label.operator?, operators, ihl, ihr]
  | group e ih => exact ih

/-! ## Walks one after another -/

theorem pileOfWalk_walks_append (es : List Expr) (rest : List Label) :
    pileOfWalk (es.flatMap walk ++ rest) = (pileOfWalk rest).map (es ++ ·) := by
  induction es with
  | nil => simp
  | cons e es ih =>
    rw [List.flatMap_cons, List.append_assoc, pileOfWalk_walk_append, ih, Option.map_map]
    rfl

theorem walks_isPrefix_iff {as bs : List Expr} :
    as.flatMap walk <+: bs.flatMap walk ↔ as <+: bs := by
  constructor
  · rintro ⟨rest, h⟩
    -- read both sides back from the right end
    have hpile : (pileOfWalk rest).map (as ++ ·) = some bs := by
      have hbs := pileOfWalk_walks_append bs []
      rw [← pileOfWalk_walks_append, h, ← List.append_nil (bs.flatMap walk), hbs]
      simp [pileOfWalk]
    obtain ⟨pile, -, hbs⟩ := Option.map_eq_some_iff.mp hpile
    exact ⟨pile, hbs⟩
  · rintro ⟨more, rfl⟩
    rw [List.flatMap_append]
    exact List.prefix_append _ _

theorem walk_isPrefix_iff {a b : Expr} : a.walk <+: b.walk ↔ a = b := by
  have h : [a].flatMap walk <+: [b].flatMap walk ↔ [a] <+: [b] := walks_isPrefix_iff
  simpa using h

/-! ## How many literals -/

theorem literalCount_eq_binaryCount (e : Expr) : e.literalCount = e.binaryCount + 1 := by
  induction e with
  | literal v => rfl
  | negate e ih => exact ih
  | binary op l r ihl ihr =>
    simp only [literalCount, binaryCount, operators, List.length_cons, List.length_append] at *
    omega
  | group e ih => exact ih

/-- The expression of this depth with the most literals. -/
def widest : (depth : Nat) → Expr
  | 0 => literal 0
  | depth + 1 => binary .add (widest depth) (widest depth)

theorem depth_widest (depth : Nat) : (widest depth).depth = depth := by
  induction depth with
  | zero => rfl
  | succ depth ih => simp [widest, Expr.depth, ih]

theorem literalCount_widest (depth : Nat) : (widest depth).literalCount = 2 ^ depth := by
  induction depth with
  | zero => rfl
  | succ depth ih =>
    rw [widest, literalCount, ih]
    omega

/-- A walk that begins with the walk of an expression is that walk. It visits every node once and
finds one literal more than operators. A level of depth can at most double the literals, and in
the widest expression it does. -/
theorem walk_settles (e : Expr) :
    (∀ e' : Expr, e.walk <+: e'.walk ↔ e = e') ∧
      e.walk.length = e.nodeCount ∧
      e.walk.filterMap Label.literal? = e.literals ∧
      e.walk.filterMap Label.operator? = e.operators ∧
      e.literals.length = e.binaryCount + 1 ∧
      e.literals.length ≤ 2 ^ e.depth ∧
      ∃ wide : Expr, wide.depth = e.depth ∧ wide.literals.length = 2 ^ e.depth := by
  refine ⟨fun e' => walk_isPrefix_iff, length_walk e, filterMap_literal?_walk e,
    filterMap_operator?_walk e, ?_, ?_, ?_⟩
  · rw [length_literals, literalCount_eq_binaryCount]
  · rw [length_literals]
    exact literalCount_le_two_pow_depth e
  · exact ⟨widest e.depth, depth_widest e.depth, by rw [length_literals, literalCount_widest]⟩

end Expr

end Arith64

import Arith64.Proofs.Machine

/-!
# What the machine computes, over the integers

The same semantics without words: every operation is the one on integers, and
its result is cut to 64 bits where it can leave them.
-/

namespace Arith64

/-- The integer in the range of signed 64-bit words that is `n` modulo `2 ^ 64`. -/
def wrap (n : Int) : Int := n.bmod (2 ^ 64)

/-- The result of an operator on integers in that range. Quotients go toward zero, and the upper
half of a product is rounded down. -/
def BinOp.meaning : BinOp → Int → Int → Except Fault Int
  | .add, a, b => .ok (wrap (a + b))
  | .sub, a, b => .ok (wrap (a - b))
  | .mul, a, b => .ok (wrap (a * b))
  | .div, a, b => if b = 0 then .error .divisionByZero else .ok (wrap (a.tdiv b))
  | .rem, a, b => if b = 0 then .error .remainderByZero else .ok (a.tmod b)
  | .highMul, a, b => .ok (a * b / 2 ^ 64)

/-- The result of an expression: operands from left to right, and the first fault ends it. -/
def Expr.meaning : Expr → Except Fault Int
  | .literal v => .ok v.toInt
  | .negate e => do
    let a ← e.meaning
    return wrap (-a)
  | .binary op l r => do
    let a ← l.meaning
    let b ← r.meaning
    op.meaning a b
  | .group e => e.meaning

/-! ## Words and integers -/

theorem natAbs_mul_toInt_le (a b : Int64) : (a.toInt * b.toInt).natAbs ≤ 2 ^ 126 := by
  have ha := a.le_toInt
  have ha' := a.toInt_lt
  have hb := b.le_toInt
  have hb' := b.toInt_lt
  calc (a.toInt * b.toInt).natAbs = a.toInt.natAbs * b.toInt.natAbs := Int.natAbs_mul _ _
    _ ≤ 2 ^ 63 * 2 ^ 63 := Nat.mul_le_mul (by omega) (by omega)
    _ = 2 ^ 126 := by rw [← Nat.pow_add]

theorem toInt_mulHigh (a b : Int64) : (mulHigh a b).toInt = a.toInt * b.toInt / 2 ^ 64 := by
  have hle := natAbs_mul_toInt_le a b
  have hsize : (UInt64.size : Int) = 2 ^ 64 := by rfl
  unfold mulHigh
  rw [hsize]
  generalize a.toInt * b.toInt = p at hle
  rw [Int64.toInt_ofInt_of_le (by omega) (by omega)]

theorem toInt_apply (op : BinOp) (a b : Int64) :
    (op.apply a b).map Int64.toInt = op.meaning a.toInt b.toInt := by
  have hzero : b.toInt = 0 ↔ b = 0 := by
    rw [← Int64.toInt_zero, Int64.toInt_inj]
  cases op with
  | add => exact congrArg Except.ok (Int64.toInt_add a b)
  | sub => exact congrArg Except.ok (Int64.toInt_sub a b)
  | mul => exact congrArg Except.ok (Int64.toInt_mul a b)
  | div =>
    simp only [BinOp.apply, BinOp.meaning, hzero]
    split
    · rfl
    · exact congrArg Except.ok (Int64.toInt_div a b)
  | rem =>
    simp only [BinOp.apply, BinOp.meaning, hzero]
    split
    · rfl
    · exact congrArg Except.ok (Int64.toInt_mod a b)
  | highMul => exact congrArg Except.ok (toInt_mulHigh a b)

theorem toInt_value (e : Expr) : e.value.map Int64.toInt = e.meaning := by
  induction e with
  | literal v => rfl
  | negate e ih =>
    rw [Expr.value, Expr.meaning, ← ih]
    cases e.value with
    | error fault => rfl
    | ok v => exact congrArg Except.ok (Int64.toInt_neg v)
  | binary op l r ihl ihr =>
    rw [Expr.value, Expr.meaning, ← ihl, ← ihr]
    cases l.value with
    | error fault => rfl
    | ok a =>
      cases r.value with
      | error fault => rfl
      | ok b => exact toInt_apply op a b
  | group e ih => exact ih

/-! ## The machine -/

/-- The machine gives the integer that the expression means, or its first fault. -/
theorem evaluate_eq_meaning (e : Expr) (hfit : e.literalCount ≤ 2 ^ 32 ∨ e.depth ≤ 32) :
    e.evaluate.map Int64.toInt = e.meaning.mapError .fault ∧
      ∀ defect, e.evaluate ≠ .error (.malformed defect) := by
  have hcount : e.literalCount ≤ 2 ^ 32 := by
    rcases hfit with h | h
    · exact h
    · exact Nat.le_trans e.literalCount_le_two_pow_depth (Nat.pow_le_pow_right (by omega) h)
  rw [evaluate_eq_value hcount, ← toInt_value]
  cases e.value with
  | error fault => exact ⟨rfl, by simp [Except.mapError]⟩
  | ok v => exact ⟨rfl, by simp [Except.mapError]⟩

/-- The smallest word is its own negation, and its quotient by minus one is itself again. -/
theorem evaluate_smallest_word :
    (Expr.binary .div (.negate (.literal Int64.minValue)) (.group (.literal (-1)))).evaluate.map
      Int64.toInt = .ok (-2 ^ 63) := by
  rw [(evaluate_eq_meaning _ (.inl (by decide))).1]
  rfl

end Arith64

import Arith64.Proofs.Machine

/-!
# Wrapping at every step or once

Sums, differences, products and negations of words are those of integers modulo
`2 ^ 64`. Where an expression has no other operators, the machine gives the
value over the integers, cut to a word at the very end.
-/

namespace Arith64

/-! ## Values over the integers -/

/-- The operation on integers of an operator that needs no quotient. -/
def BinOp.ring? : BinOp → Option (Int → Int → Int)
  | .add => some (· + ·)
  | .sub => some (· - ·)
  | .mul => some (· * ·)
  | .div | .rem | .highMul => none

/-- The value of an expression over all integers, if no operator of it needs a quotient. -/
def Expr.unwrapped? : Expr → Option Int
  | .literal v => some v.toInt
  | .negate e => e.unwrapped?.map (- ·)
  | .binary op l r =>
    match op.ring?, l.unwrapped?, r.unwrapped? with
    | some f, some a, some b => some (f a b)
    | _, _, _ => none
  | .group e => e.unwrapped?

theorem BinOp.exists_ring {op : BinOp} (hdiv : op ≠ .div) (hrem : op ≠ .rem)
    (hhigh : op ≠ .highMul) : ∃ f, op.ring? = some f := by
  cases op <;> simp [ring?] at *

theorem Expr.exists_unwrapped {e : Expr}
    (h : ∀ op ∈ e.operators, op ≠ .div ∧ op ≠ .rem ∧ op ≠ .highMul) :
    ∃ n, e.unwrapped? = some n := by
  induction e with
  | literal v => exact ⟨v.toInt, rfl⟩
  | negate e ih =>
    obtain ⟨n, hn⟩ := ih h
    exact ⟨-n, by simp [unwrapped?, hn]⟩
  | binary op l r ihl ihr =>
    rw [operators, List.forall_mem_cons, List.forall_mem_append] at h
    obtain ⟨⟨hdiv, hrem, hhigh⟩, hl, hr⟩ := h
    obtain ⟨f, hf⟩ := BinOp.exists_ring hdiv hrem hhigh
    obtain ⟨a, ha⟩ := ihl hl
    obtain ⟨b, hb⟩ := ihr hr
    exact ⟨f a b, by simp only [unwrapped?, hf, ha, hb]⟩
  | group e ih => exact ih h

/-! ## Words -/

theorem apply_ofInt {op : BinOp} {f : Int → Int → Int} (h : op.ring? = some f) (a b : Int) :
    op.apply (Int64.ofInt a) (Int64.ofInt b) = .ok (Int64.ofInt (f a b)) := by
  cases op with
  | add =>
    cases h
    rw [BinOp.apply, Int64.ofInt_add]
  | sub =>
    cases h
    rw [BinOp.apply, Int64.ofInt_sub]
  | mul =>
    cases h
    rw [BinOp.apply, Int64.ofInt_mul]
  | div => cases h
  | rem => cases h
  | highMul => cases h

theorem value_of_unwrapped {e : Expr} {n : Int} (h : e.unwrapped? = some n) :
    e.value = .ok (Int64.ofInt n) := by
  induction e generalizing n with
  | literal v =>
    cases h
    rw [Int64.ofInt_toInt, Expr.value]
  | negate e ih =>
    obtain ⟨m, hm, rfl⟩ := Option.map_eq_some_iff.mp h
    rw [Expr.value, ih hm, Int64.ofInt_neg]
  | binary op l r ihl ihr =>
    unfold Expr.unwrapped? at h
    split at h
    · rename_i f a b hf ha hb
      cases h
      rw [Expr.value, ihl ha, ihr hb]
      exact apply_ofInt hf a b
    · cases h
  | group e ih => exact ih h

theorem dvd_sub_toInt_ofInt (n : Int) : (2 : Int) ^ 64 ∣ n - (Int64.ofInt n).toInt := by
  rw [Int64.toInt_ofInt]
  exact Int.dvd_self_sub_bmod

/-- Without quotients and upper halves the machine gives the word that differs from the value over
the integers by a multiple of `2 ^ 64`. -/
theorem evaluate_wraps_once (e : Expr) (hfit : e.literalCount ≤ 2 ^ 32)
    (hring : ∀ op ∈ e.operators, op ≠ .div ∧ op ≠ .rem ∧ op ≠ .highMul) :
    ∃ n v, e.unwrapped? = some n ∧ e.evaluate = .ok v ∧
      -2 ^ 63 ≤ v.toInt ∧ v.toInt < 2 ^ 63 ∧ (2 : Int) ^ 64 ∣ n - v.toInt := by
  obtain ⟨n, hn⟩ := Expr.exists_unwrapped hring
  refine ⟨n, Int64.ofInt n, hn, ?_, Int64.le_toInt _, Int64.toInt_lt _, dvd_sub_toInt_ofInt n⟩
  rw [evaluate_eq_value hfit, value_of_unwrapped hn]
  rfl

/-- The smallest word negated, less its product with three: `2 ^ 65` over the integers. -/
theorem evaluate_wraps_to_zero :
    let smallest := Expr.literal Int64.minValue
    let e := Expr.binary .sub (.negate smallest) (.group (.binary .mul smallest (.literal 3)))
    e.unwrapped? = some (2 ^ 65) ∧ e.evaluate = .ok 0 := by
  intro smallest e
  obtain ⟨n, v, hn, hv, hle, hlt, hdvd⟩ := evaluate_wraps_once e (by decide) (by decide)
  have hsum : e.unwrapped? = some (2 ^ 65) := by decide
  rw [hsum, Option.some.injEq] at hn
  have hzero : v = 0 := by
    rw [← Int64.toInt_inj, Int64.toInt_zero]
    omega
  exact ⟨hsum, by rw [hv, hzero]⟩

end Arith64

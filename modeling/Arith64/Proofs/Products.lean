import Arith64.Proofs.Meaning

/-!
# The two halves of a product

A product of two words takes at most 128 bits. The lower half of it, read
without a sign, is the wrapping product, and the upper half is the other
operator. Together they are the product over the integers.
-/

namespace Arith64

/-! ## The product in 128 bits -/

/-- The product of two words, each of them widened to 128 bits with its sign. -/
def wideProduct (a b : Int64) : BitVec 128 :=
  a.toBitVec.signExtend 128 * b.toBitVec.signExtend 128

theorem toInt_wideProduct (a b : Int64) : (wideProduct a b).toInt = a.toInt * b.toInt := by
  have hle := natAbs_mul_toInt_le a b
  unfold wideProduct
  rw [BitVec.toInt_mul, BitVec.toInt_signExtend_of_le (by omega),
    BitVec.toInt_signExtend_of_le (by omega), Int64.toInt_toBitVec, Int64.toInt_toBitVec]
  generalize a.toInt * b.toInt = p at hle
  exact Int.bmod_eq_of_le_mul_two (by omega) (by omega)

theorem toInt_shifted_wideProduct (a b : Int64) :
    ((wideProduct a b).sshiftRight 64).toInt = (mulHigh a b).toInt := by
  rw [BitVec.toInt_sshiftRight, toInt_wideProduct, toInt_mulHigh, Int.shiftRight_eq_div_pow]
  rfl

theorem mulHigh_eq_narrowed (a b : Int64) :
    mulHigh a b = Int64.ofBitVec (((wideProduct a b).sshiftRight 64).setWidth 64) := by
  have hle := (mulHigh a b).le_toInt
  have hlt := (mulHigh a b).toInt_lt
  rw [← Int64.toBitVec_inj, ← BitVec.toInt_inj, Int64.toBitVec_ofBitVec, Int64.toInt_toBitVec,
    ← BitVec.signExtend_eq_setWidth_of_le _ (by omega), BitVec.toInt_signExtend,
    Nat.min_eq_left (by omega), toInt_shifted_wideProduct]
  exact (Int.bmod_eq_of_le_mul_two (by omega) (by omega)).symm

/-! ## The lower half -/

theorem toNat_toUInt64 (v : Int64) : (v.toUInt64.toNat : Int) = v.toInt % 2 ^ 64 := by
  have hlt := v.toBitVec.isLt
  have hword : v.toUInt64.toNat = v.toBitVec.toNat := rfl
  have hmod := Int.bmod_emod (x := v.toBitVec.toNat) (m := 2 ^ 64)
  rw [← Int64.toInt_toBitVec, BitVec.toInt_eq_toNat_bmod, hword]
  omega

theorem toNat_toUInt64_mul (a b : Int64) :
    ((a * b).toUInt64.toNat : Int) = a.toInt * b.toInt % 2 ^ 64 := by
  have hmod := Int.bmod_emod (x := a.toInt * b.toInt) (m := 2 ^ 64)
  rw [toNat_toUInt64, Int64.toInt_mul]
  exact hmod

/-! ## Both halves -/

theorem mul_toInt_eq_halves (a b : Int64) :
    a.toInt * b.toInt = (mulHigh a b).toInt * 2 ^ 64 + (a * b).toUInt64.toNat := by
  rw [toInt_mulHigh, toNat_toUInt64_mul]
  omega

theorem mulHigh_bounds (a b : Int64) :
    -2 ^ 62 ≤ (mulHigh a b).toInt ∧ (mulHigh a b).toInt ≤ 2 ^ 62 := by
  have hle := natAbs_mul_toInt_le a b
  rw [toInt_mulHigh]
  generalize a.toInt * b.toInt = p at hle
  omega

/-- The halves of a product over the integers are what the machine puts on its stack for the two
operators. The upper one stays far from the ends of a word, and neither the product in 128 bits nor
the step back to 64 loses anything. -/
theorem product_halves (a b : Int64) :
    ∃ low : Int64,
      (∀ constants stack, (Instr.operate .mul).step constants (b :: a :: stack) =
        .ok (low :: stack)) ∧
      (∀ constants stack, (Instr.operate .highMul).step constants (b :: a :: stack) =
        .ok (mulHigh a b :: stack)) ∧
      a.toInt * b.toInt = (mulHigh a b).toInt * 2 ^ 64 + low.toUInt64.toNat ∧
      low.toUInt64.toNat < 2 ^ 64 ∧
      -2 ^ 62 ≤ (mulHigh a b).toInt ∧ (mulHigh a b).toInt ≤ 2 ^ 62 ∧
      mulHigh a b = Int64.ofBitVec (((wideProduct a b).sshiftRight 64).setWidth 64) ∧
      (wideProduct a b).toInt = a.toInt * b.toInt ∧
      ((wideProduct a b).sshiftRight 64).toInt = (mulHigh a b).toInt := by
  obtain ⟨hlow, hhigh⟩ := mulHigh_bounds a b
  refine ⟨a * b, ?_, ?_, mul_toInt_eq_halves a b, UInt64.toNat_lt _, hlow, hhigh,
    mulHigh_eq_narrowed a b, toInt_wideProduct a b, toInt_shifted_wideProduct a b⟩
  · intro constants stack
    rfl
  · intro constants stack
    rfl

/-- Both bounds of the upper half are reached. -/
example : (mulHigh Int64.minValue Int64.minValue).toInt = 2 ^ 62 ∧
    (mulHigh Int64.minValue Int64.maxValue).toInt = -2 ^ 62 := by
  rw [toInt_mulHigh, toInt_mulHigh]
  decide

end Arith64

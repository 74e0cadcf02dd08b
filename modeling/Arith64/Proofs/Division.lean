import Arith64.Proofs.Faults

/-!
# Quotient and remainder

Division and remainder are two halves of one operation. The remainder has the
sign of the dividend and is smaller than the divisor, and only one quotient goes
with it. One quotient of two words is no word itself: it wraps, and nothing
remains.
-/

namespace Arith64

/-- The smallest word by minus one comes to a number that no word has. -/
def QuotientWraps (a b : Int64) : Prop := a = Int64.minValue ∧ b = -1

/-- What makes `q` and `r` the quotient and the remainder of `a` by `b`. -/
structure Truncates (a b q r : Int64) : Prop where
  sign : r = 0 ∨ r.toInt.sign = a.toInt.sign
  small : r.toInt.natAbs < b.toInt.natAbs
  exact : ¬ QuotientWraps a b → a.toInt = q.toInt * b.toInt + r.toInt
  wrapped : QuotientWraps a b → 2 ^ 64 ∣ a.toInt - (q.toInt * b.toInt + r.toInt)

variable {a b q r : Int64}

theorem toInt_ne_zero (hb : b ≠ 0) : b.toInt ≠ 0 := by
  rw [← Int64.toInt_zero]
  exact fun h => hb (Int64.toInt_inj.mp h)

theorem toInt_div (h : ¬ QuotientWraps a b) : (a / b).toInt = a.toInt.tdiv b.toInt := by
  by_cases ha : a = Int64.minValue
  · exact Int64.toInt_div_of_ne_right a b fun hb => h ⟨ha, hb⟩
  · exact Int64.toInt_div_of_ne_left a b ha

theorem truncates_div_mod (hb : b ≠ 0) : Truncates a b (a / b) (a % b) := by
  have hne := toInt_ne_zero hb
  refine ⟨?_, ?_, ?_, ?_⟩
  · have hsign := Int.sign_tmod a.toInt b.toInt
    rw [← Int64.toInt_inj, Int64.toInt_mod]
    split at hsign
    · exact .inl (Int.sign_eq_zero_iff_zero.mp hsign)
    · exact .inr hsign
  · rw [Int64.toInt_mod, Int.natAbs_tmod]
    exact Nat.mod_lt _ (Int.natAbs_pos.mpr hne)
  · intro h
    rw [toInt_div h, Int64.toInt_mod, Int.tdiv_mul_add_tmod]
  · rintro ⟨rfl, rfl⟩
    decide

/-- With a divisor of minus one nothing can remain, so the quotient is known but for multiples of
`2 ^ 64`, and no two words differ by one of these. -/
theorem Truncates.eq_of_wraps (h : Truncates a b q r) (hwraps : QuotientWraps a b) :
    q = Int64.minValue ∧ r = 0 := by
  have hsum := h.wrapped hwraps
  have hsmall := h.small
  obtain ⟨rfl, rfl⟩ := hwraps
  have hone : (-1 : Int64).toInt = -1 := by decide
  have hge := q.le_toInt
  have hlt := q.toInt_lt
  rw [Int64.toInt_minValue] at hsum
  rw [hone] at hsum hsmall
  rw [← Int64.toInt_inj, ← Int64.toInt_inj, Int64.toInt_minValue, Int64.toInt_zero]
  omega

theorem Truncates.eq_of_exact (h : Truncates a b q r) (hb : b ≠ 0) (hfits : ¬ QuotientWraps a b) :
    q = a / b ∧ r = a % b := by
  have hne := toInt_ne_zero hb
  have hsum := h.exact hfits
  have hsmall := h.small
  have hsign : 0 ≤ a.toInt ∧ 0 ≤ r.toInt ∨ a.toInt ≤ 0 ∧ r.toInt ≤ 0 := by
    rcases h.sign with rfl | hsign
    · rw [Int64.toInt_zero]
      omega
    · have hpos : 0 ≤ r.toInt ↔ 0 ≤ a.toInt := by
        rw [← Int.sign_nonneg_iff, hsign, Int.sign_nonneg_iff]
      have hneg : r.toInt ≤ 0 ↔ a.toInt ≤ 0 := by
        rw [← Int.sign_nonpos_iff, hsign, Int.sign_nonpos_iff]
      rcases Int.le_total 0 r.toInt with hr | hr
      · exact .inl ⟨hpos.mp hr, hr⟩
      · exact .inr ⟨hneg.mp hr, hr⟩
  rw [Int.mul_comm, Int.add_comm] at hsum
  rw [← Int64.toInt_inj, ← Int64.toInt_inj, toInt_div hfits, Int64.toInt_mod]
  rcases hsign with ⟨ha, hr⟩ | ⟨ha, hr⟩
  · obtain ⟨hq, hr⟩ := (Int.tdiv_tmod_unique ha hne).mpr ⟨hsum.symm, hr, by omega⟩
    exact ⟨hq.symm, hr.symm⟩
  · obtain ⟨hq, hr⟩ := (Int.tdiv_tmod_unique' ha hne).mpr ⟨hsum.symm, by omega, hr⟩
    exact ⟨hq.symm, hr.symm⟩

theorem truncates_iff (hb : b ≠ 0) : Truncates a b q r ↔ q = a / b ∧ r = a % b := by
  constructor
  · intro h
    by_cases hwraps : QuotientWraps a b
    · obtain ⟨rfl, rfl⟩ := h.eq_of_wraps hwraps
      obtain ⟨hq, hr⟩ := (truncates_div_mod hb).eq_of_wraps hwraps
      exact ⟨hq.symm, hr.symm⟩
    · exact h.eq_of_exact hb hwraps
  · rintro ⟨rfl, rfl⟩
    exact truncates_div_mod hb

/-- Only a zero divisor has no quotient and no remainder. With any other the two truncate, and they
are the only words that do. -/
theorem quotient_and_remainder (a b : Int64) :
    (∀ fault, BinOp.div.apply a b = .error fault ↔ b = 0 ∧ fault = .divisionByZero) ∧
      (∀ fault, BinOp.rem.apply a b = .error fault ↔ b = 0 ∧ fault = .remainderByZero) ∧
      (b ≠ 0 → ∃ q r, BinOp.div.apply a b = .ok q ∧ BinOp.rem.apply a b = .ok r ∧
        Truncates a b q r ∧ (∀ q' r', Truncates a b q' r' → q' = q ∧ r' = r) ∧
        (QuotientWraps a b → q = Int64.minValue ∧ r = 0)) := by
  refine ⟨?_, ?_, ?_⟩
  · intro fault
    rw [BinOp.apply_eq_error_iff]
    simp [BinOp.zeroFault?, eq_comm]
  · intro fault
    rw [BinOp.apply_eq_error_iff]
    simp [BinOp.zeroFault?, eq_comm]
  · intro hb
    have htruncates : Truncates a b (a / b) (a % b) := truncates_div_mod hb
    refine ⟨a / b, a % b, if_neg hb, if_neg hb, htruncates, ?_, htruncates.eq_of_wraps⟩
    intro q' r' h
    exact (truncates_iff hb).mp h

example : BinOp.div.apply (-7) 2 = .ok (-3) ∧ BinOp.rem.apply (-7) 2 = .ok (-1) := by
  decide

end Arith64

import Arith64.Random.Source

/-!
# Picking numbers with random words

A word below `size` becomes a number below a bound by a widening product: the
quotient of `word * bound` by `size` is the pick, the remainder says how near
the pick is to the next one. Only when it is very near does a second word
decide. It can carry the pick up by one, and there is room for that.
-/

namespace Arith64

section Quotients

variable {size bound word : Nat}

theorem quotient_lt (hword : word < size) (hbound : 0 < bound) : word * bound / size < bound :=
  Nat.div_lt_of_lt_mul (Nat.mul_lt_mul_of_pos_right hword hbound)

/-- A remainder that calls for a second word does not belong to the greatest quotient. -/
theorem quotient_succ_lt (hword : word < size) (hlow : size - bound < word * bound % size) :
    word * bound / size + 1 < bound := by
  have hsplit := Nat.div_add_mod (word * bound) size
  have hproduct : (word + 1) * bound ≤ size * bound := Nat.mul_le_mul_right bound hword
  rw [Nat.succ_mul] at hproduct
  -- The greatest quotient leaves a product of at most `size * bound - bound`, so a low remainder.
  apply Nat.lt_of_not_le
  intro hgreatest
  have hsize := Nat.mul_le_mul_left size hgreatest
  rw [Nat.mul_succ] at hsize
  omega

end Quotients

/-- A number below `bound`, from one word below `size` or from two. -/
def pick {σ : Type} (size bound : Nat) (hbound : 0 < bound) (draw : StateM σ (Fin size)) :
    StateM σ (Fin bound) := do
  let word ← draw
  let high : Fin bound := ⟨word * bound / size, quotient_lt word.isLt hbound⟩
  let low := word * bound % size
  if hlow : size - bound < low then
    let carry := (← draw) * bound / size
    return if size ≤ low + carry then ⟨high + 1, quotient_succ_lt word.isLt hlow⟩ else high
  else
    return high

def pick64 {σ : Type} [RandomSource σ] (bound : Nat) (hbound : 0 < bound) :
    StateM σ (Fin bound) :=
  pick UInt64.size bound hbound (UInt64.toFin <$> draw64)

def pick32 {σ : Type} [RandomSource σ] (bound : Nat) (hbound : 0 < bound) :
    StateM σ (Fin bound) :=
  pick UInt32.size bound hbound (UInt32.toFin <$> draw32)

/-- A number from zero up to but without one: the upper 53 bits of a word, which count parts of
`2 ^ -53`. -/
def drawUnit {σ : Type} [RandomSource σ] : StateM σ Nat := do
  let word ← draw64
  return (word >>> 11).toNat

end Arith64

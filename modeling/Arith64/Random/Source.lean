/-!
# Sources of random words

A source gives one word after another, of 64 or of 32 bits. What is drawn
depends on the state of the source alone, so a run can be repeated.
-/

namespace Arith64

/-- States that random words can be drawn from. -/
class RandomSource (σ : Type) where
  next64 : σ → UInt64 × σ
  next32 : σ → UInt32 × σ

def draw64 {σ : Type} [RandomSource σ] : StateM σ UInt64 := RandomSource.next64

def draw32 {σ : Type} [RandomSource σ] : StateM σ UInt32 := RandomSource.next32

/-! ## Words written down in advance -/

/-- The words a source is going to give. Behind the last one every word is zero. -/
structure Script where
  words : List UInt64

namespace Script

/-- The next word of a script. -/
def next (s : Script) : UInt64 × Script := (s.words.headD 0, ⟨s.words.tail⟩)

/-- A short word is the lower half of a whole one. -/
instance : RandomSource Script where
  next64 := next
  next32 s := let (word, s) := s.next; (word.toUInt32, s)

end Script

/-! ## Counting -/

/-- A source and the number of words that have been drawn from it. -/
structure Counted (σ : Type) where
  source : σ
  draws : Nat

instance {σ : Type} [RandomSource σ] : RandomSource (Counted σ) where
  next64 s := let (word, source) := RandomSource.next64 s.source; (word, ⟨source, s.draws + 1⟩)
  next32 s := let (word, source) := RandomSource.next32 s.source; (word, ⟨source, s.draws + 1⟩)

end Arith64

import Arith64.Random.Pick

/-!
# Which numbers are picked

Every number below the bound is picked with some word, and no second word is
asked for then.
-/

namespace Arith64

/-! ## One action after another -/

section Actions

variable {σ α β : Type}

theorem draw_bind (x : StateM σ α) (f : α → StateM σ β) (s : σ) :
    (x >>= f) s = f (x s).1 (x s).2 := rfl

theorem draw_pure (a : α) (s : σ) : (pure a : StateM σ α) s = (a, s) := rfl

theorem draw_map (f : α → β) (x : StateM σ α) (s : σ) : (f <$> x) s = (f (x s).1, (x s).2) := rfl

/-- What the action gives has the property, whatever the state of the source. -/
def Yields (x : StateM σ α) (P : α → Prop) : Prop := ∀ s, P (x s).1

variable {x : StateM σ α} {P : α → Prop}

theorem Yields.bind {f : α → StateM σ β} {Q : β → Prop} (hx : Yields x P)
    (hf : ∀ a, P a → Yields (f a) Q) : Yields (x >>= f) Q := by
  intro s
  exact hf _ (hx s) _

theorem Yields.pure {a : α} (h : P a) : Yields (pure a : StateM σ α) P := fun _ => h

theorem yields_any (x : StateM σ α) : Yields x fun _ => True := fun _ => trivial

end Actions

/-- Some words in front of a script make the action give `a`, and it takes no other words. -/
def Reaches {α : Type} (x : StateM Script α) (a : α) : Prop :=
  ∃ words, ∀ more, x ⟨words ++ more⟩ = (a, ⟨more⟩)

namespace Reaches

variable {α β : Type} {x : StateM Script α} {a : α}

theorem bind {f : α → StateM Script β} {b : β} (hx : Reaches x a) (hf : Reaches (f a) b) :
    Reaches (x >>= f) b := by
  obtain ⟨front, hx⟩ := hx
  obtain ⟨back, hf⟩ := hf
  refine ⟨front ++ back, ?_⟩
  intro more
  rw [List.append_assoc, draw_bind, hx]
  exact hf more

theorem pure (a : α) : Reaches (pure a) a := ⟨[], fun _ => rfl⟩

theorem map (f : α → β) (hx : Reaches x a) : Reaches (f <$> x) (f a) := by
  obtain ⟨words, hx⟩ := hx
  refine ⟨words, ?_⟩
  intro more
  rw [draw_map, hx]

theorem draw64 (word : UInt64) : Reaches draw64 word := ⟨[word], fun _ => rfl⟩

theorem draw32 (word : UInt32) : Reaches draw32 word := by
  refine ⟨[word.toUInt64], ?_⟩
  intro more
  exact congrArg (·, Script.mk more) (UInt32.toUInt32_toUInt64 word)

end Reaches

/-! ## Words for a quotient -/

section Quotients

variable {size bound n : Nat}

/-- The least word with the quotient `n`. -/
def wordFor (size bound n : Nat) : Nat := (n * size + (bound - 1)) / bound

theorem wordFor_mul (hn : n < bound) :
    ∃ low < bound, wordFor size bound n * bound = n * size + low := by
  have hsplit := Nat.div_add_mod (n * size + (bound - 1)) bound
  have hmod := Nat.mod_lt (n * size + (bound - 1)) (by omega : bound > 0)
  refine ⟨bound - 1 - (n * size + (bound - 1)) % bound, by omega, ?_⟩
  rw [wordFor, Nat.mul_comm]
  omega

theorem wordFor_lt (hn : n < bound) (hsize : bound ≤ size) : wordFor size bound n < size := by
  apply Nat.div_lt_of_lt_mul
  calc n * size + (bound - 1) < n * size + size := by omega
    _ = (n + 1) * size := (Nat.succ_mul n size).symm
    _ ≤ bound * size := Nat.mul_le_mul_right size hn

theorem wordFor_div_mod (hn : n < bound) (hsize : 2 * bound ≤ size) :
    wordFor size bound n * bound / size = n ∧
      wordFor size bound n * bound % size ≤ size - bound := by
  obtain ⟨low, hlow, hproduct⟩ : ∃ low < bound, wordFor size bound n * bound = n * size + low :=
    wordFor_mul hn
  have hpos : 0 < size := by omega
  have hsplit : low + size * n = wordFor size bound n * bound ∧ low < size := by
    rw [hproduct, Nat.mul_comm, Nat.add_comm]
    exact ⟨rfl, by omega⟩
  obtain ⟨hdiv, hmod⟩ := (Nat.div_mod_unique hpos).mpr hsplit
  exact ⟨hdiv, by omega⟩

end Quotients

/-! ## Picks -/

theorem reaches_pick {size bound : Nat} {draw : StateM Script (Fin size)} {n : Fin bound}
    (hsize : 2 * bound ≤ size)
    (hdraw : Reaches draw ⟨wordFor size bound n, wordFor_lt n.isLt (by omega)⟩) :
    Reaches (pick size bound n.pos draw) n := by
  obtain ⟨hdiv, hmod⟩ := wordFor_div_mod n.isLt hsize
  unfold pick
  refine hdraw.bind ?_
  dsimp only
  rw [dif_neg (Nat.not_lt.mpr hmod)]
  simp only [hdiv]
  exact .pure n

section Words

variable {bound : Nat} (n : Fin bound)

theorem reaches_pick64 (hsize : 2 * bound ≤ UInt64.size) : Reaches (pick64 bound n.pos) n :=
  reaches_pick hsize ((Reaches.draw64 (UInt64.ofFin _)).map UInt64.toFin)

theorem reaches_pick32 (hsize : 2 * bound ≤ UInt32.size) : Reaches (pick32 bound n.pos) n :=
  reaches_pick hsize ((Reaches.draw32 (UInt32.ofFin _)).map UInt32.toFin)

end Words

end Arith64

import Arith64.Expr.Random
import Arith64.Proofs.Picks

/-!
# Which expressions are drawn

An expression comes out of a budget exactly if it is no deeper and its literals
are where they may be: those above the floor in the range asked for, those on
the floor in the small one. No such expression is left out, and nothing else
comes out of any source.
-/

namespace Arith64

/-! ## Literals and where they stand -/

/-- The words of a range: all of them, or the integers up to 1000 away from zero. -/
def LiteralRange.Spans : LiteralRange → Int64 → Prop
  | small, v => -1000 ≤ v.toInt ∧ v.toInt ≤ 1000
  | full, _ => True

theorem LiteralRange.contains_iff_spans {range : LiteralRange} {v : Int64} :
    range.contains v = true ↔ range.Spans v := by
  simp only [contains, Bool.and_eq_true, decide_eq_true_eq, Int64.le_iff_toInt_le]
  cases range with
  | small => exact Iff.rfl
  | full => exact iff_true_intro ⟨v.minValue_le_toInt, v.toInt_le⟩

theorem LiteralRange.spans_of_small (range : LiteralRange) {v : Int64} (h : small.Spans v) :
    range.Spans v := by
  cases range with
  | small => exact h
  | full => trivial

namespace Expr

/-- The literals at some depth, from left to right. -/
def literalsAt : Nat → Expr → List Int64
  | 0, literal v => [v]
  | level + 1, negate e => e.literalsAt level
  | level + 1, binary _ l r => l.literalsAt level ++ r.literalsAt level
  | level + 1, group e => e.literalsAt level
  | _, _ => []

/-- What a budget of depth and a range allow. -/
structure Fits (range : LiteralRange) (budget : Nat) (e : Expr) : Prop where
  depth_le : e.depth ≤ budget
  above : ∀ level < budget, ∀ v ∈ e.literalsAt level, range.Spans v
  floor : ∀ v ∈ e.literalsAt budget, LiteralRange.small.Spans v

section Fits

variable {range : LiteralRange} {budget : Nat} {e l r : Expr} {op : BinOp} {v : Int64}

theorem fits_iff : e.Fits range budget ↔ e.depth ≤ budget ∧
    (∀ level < budget, ∀ v ∈ e.literalsAt level, range.Spans v) ∧
      ∀ v ∈ e.literalsAt budget, LiteralRange.small.Spans v :=
  ⟨fun ⟨hdepth, habove, hfloor⟩ => ⟨hdepth, habove, hfloor⟩,
    fun ⟨hdepth, habove, hfloor⟩ => ⟨hdepth, habove, hfloor⟩⟩

theorem fits_zero_iff : e.Fits range 0 ↔ ∃ v, e = literal v ∧ LiteralRange.small.Spans v := by
  cases e <;> simp [fits_iff, depth, literalsAt]

theorem fits_literal_iff : (literal v).Fits range (budget + 1) ↔ range.Spans v := by
  simp only [fits_iff, depth, literalsAt, Nat.zero_le, Nat.forall_lt_succ_left,
    List.forall_mem_singleton, List.not_mem_nil, false_imp_iff, implies_true, and_true, true_and]

theorem fits_negate_iff : (negate e).Fits range (budget + 1) ↔ e.Fits range budget := by
  simp only [fits_iff, depth, literalsAt, Nat.add_le_add_iff_right, Nat.forall_lt_succ_left,
    List.not_mem_nil, false_imp_iff, implies_true, true_and]

theorem fits_group_iff : (group e).Fits range (budget + 1) ↔ e.Fits range budget := by
  simp only [fits_iff, depth, literalsAt, Nat.add_le_add_iff_right, Nat.forall_lt_succ_left,
    List.not_mem_nil, false_imp_iff, implies_true, true_and]

theorem fits_binary_iff : (binary op l r).Fits range (budget + 1) ↔
    l.Fits range budget ∧ r.Fits range budget := by
  simp only [fits_iff, depth, literalsAt, Nat.add_le_add_iff_right, Nat.max_le,
    Nat.forall_lt_succ_left, List.not_mem_nil, false_imp_iff, implies_true,
    List.forall_mem_append, forall_and, true_and]
  constructor
  · rintro ⟨⟨hdl, hdr⟩, ⟨hal, har⟩, hfl, hfr⟩
    exact ⟨⟨hdl, hal, hfl⟩, hdr, har, hfr⟩
  · rintro ⟨⟨hdl, hal, hfl⟩, hdr, har, hfr⟩
    exact ⟨⟨hdl, hdr⟩, ⟨hal, har⟩, hfl, hfr⟩

theorem Fits.spans_literals (h : e.Fits range budget) : ∀ v ∈ e.literals, range.Spans v := by
  induction budget generalizing e with
  | zero =>
    obtain ⟨v, rfl, hv⟩ := fits_zero_iff.mp h
    simpa [literals] using range.spans_of_small hv
  | succ budget ih =>
    cases e with
    | literal v => simpa [literals] using fits_literal_iff.mp h
    | negate e => simpa [literals] using ih (fits_negate_iff.mp h)
    | binary op l r =>
      obtain ⟨hl, hr⟩ := fits_binary_iff.mp h
      exact List.forall_mem_append.mpr ⟨ih hl, ih hr⟩
    | group e => simpa [literals] using ih (fits_group_iff.mp h)

end Fits

end Expr

/-! ## Literals, operators and shapes -/

theorem LiteralRange.toInt_ofInt_sub {n : Nat} (h : n < 2001) :
    (Int64.ofInt (n - smallBound.toInt)).toInt = n - 1000 := by
  have hbound : smallBound.toInt = 1000 := rfl
  rw [hbound, Int64.toInt_ofInt_of_le (by omega) (by omega)]

theorem LiteralRange.yields_draw {σ : Type} [RandomSource σ] (range : LiteralRange) :
    Yields (range.draw : StateM σ Int64) range.Spans := by
  cases range with
  | full => exact yields_any _
  | small =>
    refine (yields_any _).bind fun n _ => .pure ?_
    have hn : n.val < 2001 := n.isLt
    rw [Spans, toInt_ofInt_sub hn]
    omega

theorem LiteralRange.reaches_draw {range : LiteralRange} {v : Int64} (h : range.Spans v) :
    Reaches range.draw v := by
  cases range with
  | full =>
    have hdraw := (Reaches.draw64 v.toUInt64).map UInt64.toInt64
    rwa [Int64.toInt64_toUInt64] at hdraw
  | small =>
    obtain ⟨hlow, hhigh⟩ := h
    obtain ⟨n, hn⟩ := Int.eq_ofNat_of_zero_le (show 0 ≤ v.toInt + 1000 by omega)
    have hbound : n < 2001 := by omega
    have hv : Int64.ofInt (n - smallBound.toInt) = v := by
      rw [← Int64.toInt_inj, toInt_ofInt_sub hbound]
      omega
    rw [← hv]
    exact (reaches_pick64 ⟨n, hbound⟩ (by decide)).bind (.pure _)

theorem reaches_drawOperator (op : BinOp) : Reaches drawOperator op := by
  have hurn : ∃ (index : Nat) (h : index < operatorUrn.size), operatorUrn[index] = op := by
    cases op with
    | add => exact ⟨0, by decide, rfl⟩
    | mul => exact ⟨1, by decide, rfl⟩
    | highMul => exact ⟨2, by decide, rfl⟩
    | div => exact ⟨3, by decide, rfl⟩
    | rem => exact ⟨4, by decide, rfl⟩
    | sub => exact ⟨6, by decide, rfl⟩
  obtain ⟨index, hindex, rfl⟩ := hurn
  exact (reaches_pick32 ⟨index, hindex⟩ (by decide)).bind (.pure _)

theorem reaches_drawUnit (word : UInt64) : Reaches drawUnit (word >>> 11).toNat :=
  (Reaches.draw64 word).bind (.pure _)

def Expr.shape : Expr → Shape
  | .literal _ => .literal
  | .negate _ => .negate
  | .binary _ _ _ => .binary
  | .group _ => .group

theorem exists_unit_of_shape (shape : Shape) :
    ∃ parts, Reaches drawUnit parts ∧ Shape.ofUnit parts = shape := by
  cases shape with
  | literal => exact ⟨_, reaches_drawUnit 0, by decide⟩
  | negate => exact ⟨_, reaches_drawUnit 0x4000000000000000, by decide⟩
  | binary => exact ⟨_, reaches_drawUnit 0x8000000000000000, by decide⟩
  | group => exact ⟨_, reaches_drawUnit 0xffffffffffffffff, by decide⟩

/-! ## Trees -/

namespace Expr

theorem yields_draw {σ : Type} [RandomSource σ] (range : LiteralRange) (budget : Nat) :
    Yields (Expr.draw range budget : StateM σ Expr) (Fits range budget) := by
  induction budget with
  | zero =>
    refine (yields_any _).bind fun _ _ => ?_
    refine LiteralRange.small.yields_draw.bind fun v hv => .pure ?_
    exact fits_zero_iff.mpr ⟨v, rfl, hv⟩
  | succ budget ih =>
    refine (yields_any _).bind fun parts _ => ?_
    cases Shape.ofUnit parts with
    | literal => exact range.yields_draw.bind fun v hv => .pure (fits_literal_iff.mpr hv)
    | negate => exact ih.bind fun e he => .pure (fits_negate_iff.mpr he)
    | binary =>
      refine ih.bind fun l hl => (yields_any _).bind fun op _ => ih.bind fun r hr => .pure ?_
      exact fits_binary_iff.mpr ⟨hl, hr⟩
    | group => exact ih.bind fun e he => .pure (fits_group_iff.mpr he)

theorem reaches_draw {range : LiteralRange} {budget : Nat} {e : Expr}
    (h : e.Fits range budget) : Reaches (Expr.draw range budget) e := by
  induction budget generalizing e with
  | zero =>
    obtain ⟨v, rfl, hv⟩ := fits_zero_iff.mp h
    -- The number for the shape is drawn here too, though nothing depends on it.
    exact (reaches_drawUnit 0).bind ((LiteralRange.reaches_draw hv).bind (.pure _))
  | succ budget ih =>
    obtain ⟨parts, hunit, hshape⟩ := exists_unit_of_shape e.shape
    refine hunit.bind ?_
    rw [hshape]
    cases e with
    | literal v => exact (LiteralRange.reaches_draw (fits_literal_iff.mp h)).bind (.pure _)
    | negate e => exact (ih (fits_negate_iff.mp h)).bind (.pure _)
    | binary op l r =>
      obtain ⟨hl, hr⟩ := fits_binary_iff.mp h
      exact (ih hl).bind ((reaches_drawOperator op).bind ((ih hr).bind (.pure _)))
    | group e => exact (ih (fits_group_iff.mp h)).bind (.pure _)

/-- The expressions that some script gives are those that fit, and no source gives any other. -/
theorem drawn_iff_fits (range : LiteralRange) (budget : Nat) (e : Expr) :
    ((∃ script : Script, (Expr.draw range budget script).1 = e) ↔ e.Fits range budget) ∧
      ∀ {σ : Type} [RandomSource σ] (s : σ), (Expr.draw range budget s).1.Fits range budget := by
  constructor
  · constructor
    · rintro ⟨script, rfl⟩
      exact yields_draw range budget script
    · intro h
      obtain ⟨words, hwords⟩ := reaches_draw h
      refine ⟨⟨words ++ []⟩, ?_⟩
      rw [hwords]
  · intro σ _ s
    exact yields_draw range budget s

end Expr

end Arith64

import Arith64.Proofs.Decimal
import Arith64.Proofs.Machine
import Arith64.Target

/-!
# What a target text says

A negated positive number and a negative literal look alike in the target text.
Nothing else does, and the two have the same value.
-/

namespace Arith64

namespace Expr

/-- Every negation of a positive literal, written as the negative literal. -/
def foldSigns : Expr → Expr
  | literal v => literal v
  | negate (literal v) => if 0 < v then literal (-v) else negate (literal v)
  | negate e => negate e.foldSigns
  | binary op l r => binary op l.foldSigns r.foldSigns
  | group e => group e.foldSigns

/-! ## Folding changes no meaning -/

theorem value_foldSigns (e : Expr) : e.foldSigns.value = e.value := by
  fun_induction foldSigns e with
  | case1 v => rfl
  | case2 v h => rfl
  | case3 v h => rfl
  | case4 e h ih => rw [value, ih, value]
  | case5 op l r ihl ihr => rw [value, ihl, ihr, value]
  | case6 e ih => exact ih

theorem operators_foldSigns (e : Expr) : e.foldSigns.operators = e.operators := by
  fun_induction foldSigns e with
  | case1 v => rfl
  | case2 v h => rfl
  | case3 v h => rfl
  | case4 e h ih => exact ih
  | case5 op l r ihl ihr => rw [operators, ihl, ihr, operators]
  | case6 e ih => exact ih

theorem toInt_neg_of_pos {v : Int64} (h : 0 < v) : (-v).toInt = -v.toInt := by
  have hpos : 0 < v.toInt := Int64.lt_iff_toInt_lt.mp h
  have hlt := v.toInt_lt
  rw [Int64.toInt_neg, Int.bmod_eq_of_le_mul_two (by omega) (by omega)]

theorem decimalWord_neg {v : Int64} (h : 0 < v) : decimalWord (-v) = "-" ++ decimalWord v := by
  have hpos : 0 < v.toInt := Int64.lt_iff_toInt_lt.mp h
  have hneg := toInt_neg_of_pos h
  rw [decimalWord_of_neg (by omega), decimalWord_of_nonneg (by omega), hneg, Int.natAbs_neg]

theorem target_foldSigns (e : Expr) : e.foldSigns.target = e.target := by
  fun_induction foldSigns e with
  | case1 v => rfl
  | case2 v h => rw [target, decimalWord_neg h, target, target]
  | case3 v h => rfl
  | case4 e h ih => rw [target, ih, target]
  | case5 op l r ihl ihr => rw [target, ihl, ihr, target]
  | case6 e ih => rw [target, ih, target]

/-! ## Folding a negation -/

def foldNegation : Expr → Expr
  | literal v => if 0 < v then literal (-v) else negate (literal v)
  | e => negate e

theorem foldSigns_negate (e : Expr) : (negate e).foldSigns = foldNegation e.foldSigns := by
  cases e with
  | literal v => rfl
  | negate e =>
    rw [foldSigns]
    · cases e with
      | literal v =>
        rw [foldSigns]
        split
        · rename_i h
          -- The literal has become negative and is not folded again.
          have hneg : ¬ 0 < -v := by
            have hpos : 0 < v.toInt := Int64.lt_iff_toInt_lt.mp h
            rw [Int64.lt_iff_toInt_lt, toInt_neg_of_pos h, Int64.toInt_zero]
            omega
          rw [foldNegation, if_neg hneg]
        · rfl
      | negate e => rfl
      | binary op l r => rfl
      | group e => rfl
    · simp
  | binary op l r => rfl
  | group e => rfl

/-! ## Reading the text -/

theorem target_negate_append (e : Expr) (s : List Char) :
    (negate e).target.toList ++ s = '-' :: (e.target.toList ++ s) := by
  simp [target]

theorem target_group_append (e : Expr) (s : List Char) :
    (group e).target.toList ++ s = '(' :: (e.target.toList ++ ')' :: s) := by
  simp [target]

theorem target_binary_append (op : BinOp) (l r : Expr) (s : List Char) :
    (binary op l r).target.toList ++ s =
      '(' :: (l.target.toList ++ ' ' :: (op.symbol.toList ++ ' ' ::
        (r.target.toList ++ ')' :: s))) := by
  simp [target]

theorem symbol_append_inj {op op' : BinOp} {r s : List Char}
    (h : op.symbol.toList ++ ' ' :: r = op'.symbol.toList ++ ' ' :: s) : op = op' ∧ r = s := by
  have hrun (op : BinOp) : ∀ c ∈ op.symbol.toList, (c != ' ') = true := by
    rw [← List.all_eq_true]
    cases op <;> rfl
  obtain ⟨hsymbol, hrest⟩ :=
    run_append_inj (hrun op) (hrun op') (stopsRun_cons rfl) (stopsRun_cons rfl) h
  exact ⟨BinOp.symbol_injective (String.toList_inj.mp hsymbol), (List.cons.inj hrest).2⟩

theorem literal_target_ne_open {v : Int64} {r s : List Char} :
    (literal v).target.toList ++ r ≠ '(' :: s := by
  unfold target
  by_cases hv : v.toInt < 0
  · rw [toList_decimalWord_of_neg hv]
    rintro ⟨⟩
  · rw [decimalWord_of_nonneg (by omega)]
    exact decimal_append_ne_cons (by decide)

theorem eq_literal_of_target {n : Nat} {e : Expr} {r s : List Char}
    (h : (decimal n).toList ++ r = e.target.toList ++ s) : ∃ w, e = literal w ∧ 0 ≤ w.toInt := by
  cases e with
  | literal w =>
    refine ⟨w, rfl, Int.not_lt.mp ?_⟩
    intro hneg
    rw [target, toList_decimalWord_of_neg hneg] at h
    exact decimal_append_ne_cons (by decide) h
  | negate e =>
    rw [target_negate_append] at h
    exact absurd h (decimal_append_ne_cons (by decide))
  | binary op l r =>
    rw [target_binary_append] at h
    exact absurd h (decimal_append_ne_cons (by decide))
  | group e =>
    rw [target_group_append] at h
    exact absurd h (decimal_append_ne_cons (by decide))

theorem literal_target_inj {v : Int64} {b : Expr} {r s : List Char}
    (hr : StopsRun Char.isDigit r) (hs : StopsRun Char.isDigit s)
    (h : (literal v).target.toList ++ r = (negate b).target.toList ++ s) :
    literal v = (negate b).foldSigns ∧ r = s := by
  rw [target, target_negate_append] at h
  by_cases hv : v.toInt < 0
  · rw [toList_decimalWord_of_neg hv] at h
    have htail := (List.cons.inj h).2
    obtain ⟨w, rfl, hw⟩ := eq_literal_of_target htail
    rw [target, decimalWord_of_nonneg hw] at htail
    obtain ⟨habs, hrest⟩ := decimal_append_inj hr hs htail
    have hpos : 0 < w := by
      rw [Int64.lt_iff_toInt_lt, Int64.toInt_zero]
      omega
    have hvw : v = -w := by
      rw [← Int64.toInt_inj, toInt_neg_of_pos hpos]
      omega
    rw [foldSigns, if_pos hpos, hvw]
    exact ⟨rfl, hrest⟩
  · rw [decimalWord_of_nonneg (by omega)] at h
    exact absurd h (decimal_append_ne_cons (by decide))

theorem target_append_inj {a b : Expr} {r s : List Char} (hr : StopsRun Char.isDigit r)
    (hs : StopsRun Char.isDigit s) (h : a.target.toList ++ r = b.target.toList ++ s) :
    a.foldSigns = b.foldSigns ∧ r = s := by
  have hspace (t : List Char) : StopsRun Char.isDigit (' ' :: t) := stopsRun_cons (by decide)
  have hclose (t : List Char) : StopsRun Char.isDigit (')' :: t) := stopsRun_cons (by decide)
  induction a generalizing b r s with
  | literal v =>
    cases b with
    | literal w =>
      obtain ⟨rfl, hrest⟩ := decimalWord_append_inj hr hs h
      exact ⟨rfl, hrest⟩
    | negate b => exact literal_target_inj hr hs h
    | binary op l' r' =>
      rw [target_binary_append] at h
      exact absurd h literal_target_ne_open
    | group b =>
      rw [target_group_append] at h
      exact absurd h literal_target_ne_open
  | negate a ih =>
    cases b with
    | literal w =>
      obtain ⟨hfold, hrest⟩ := literal_target_inj hs hr h.symm
      exact ⟨hfold.symm, hrest.symm⟩
    | negate b =>
      rw [target_negate_append, target_negate_append] at h
      obtain ⟨hfold, hrest⟩ := ih hr hs (List.cons.inj h).2
      rw [foldSigns_negate, foldSigns_negate, hfold]
      exact ⟨rfl, hrest⟩
    | binary op l' r' =>
      rw [target_negate_append, target_binary_append] at h
      cases h
    | group b =>
      rw [target_negate_append, target_group_append] at h
      cases h
  | binary op l r' ihl ihr =>
    rw [target_binary_append] at h
    cases b with
    | literal w => exact absurd h.symm literal_target_ne_open
    | negate b =>
      rw [target_negate_append] at h
      cases h
    | binary op' l' r'' =>
      rw [target_binary_append] at h
      obtain ⟨hleft, hoperator⟩ := ihl (hspace _) (hspace _) (List.cons.inj h).2
      obtain ⟨rfl, hoperand⟩ := symbol_append_inj (List.cons.inj hoperator).2
      obtain ⟨hright, hrest⟩ := ihr (hclose _) (hclose _) hoperand
      rw [foldSigns, foldSigns, hleft, hright]
      exact ⟨rfl, (List.cons.inj hrest).2⟩
    | group b =>
      -- Behind the left operand there is a space, behind a group its parenthesis.
      rw [target_group_append] at h
      obtain ⟨-, hnext⟩ := ihl (hspace _) (hclose _) (List.cons.inj h).2
      cases hnext
  | group a ih =>
    rw [target_group_append] at h
    cases b with
    | literal w => exact absurd h.symm literal_target_ne_open
    | negate b =>
      rw [target_negate_append] at h
      cases h
    | binary op l' r' =>
      rw [target_binary_append] at h
      obtain ⟨-, hnext⟩ := ih (hclose _) (hspace _) (List.cons.inj h).2
      cases hnext
    | group b =>
      rw [target_group_append] at h
      obtain ⟨hfold, hrest⟩ := ih (hclose _) (hclose _) (List.cons.inj h).2
      rw [foldSigns, foldSigns, hfold]
      exact ⟨rfl, (List.cons.inj hrest).2⟩

theorem target_eq_iff {a b : Expr} : a.target = b.target ↔ a.foldSigns = b.foldSigns := by
  constructor
  · intro h
    exact (target_append_inj (stopsRun_nil _) (stopsRun_nil _) (by rw [h])).1
  · intro h
    rw [← target_foldSigns a, h, target_foldSigns]

/-- The target text tells two expressions apart up to folded signs, so it settles what the machine
gives for them and which operators they have. -/
theorem target_settles_evaluate (a b : Expr) :
    (a.target = b.target ↔ a.foldSigns = b.foldSigns) ∧
      (a.literalCount ≤ 2 ^ 32 → b.literalCount ≤ 2 ^ 32 → a.target = b.target →
        a.evaluate = b.evaluate ∧ a.operators = b.operators) := by
  refine ⟨target_eq_iff, ?_⟩
  intro ha hb h
  have hfold := target_eq_iff.mp h
  constructor
  · rw [evaluate_eq_value ha, evaluate_eq_value hb, ← value_foldSigns a, hfold, value_foldSigns]
  · rw [← operators_foldSigns a, hfold, operators_foldSigns]

/-- The largest word negated and the literal of the same look, one above the smallest word. -/
theorem evaluate_negated_maximum :
    let a := binary .sub (negate (literal Int64.maxValue)) (literal 1)
    let b := binary .sub (literal (-Int64.maxValue)) (literal 1)
    a.target = b.target ∧ a.evaluate = b.evaluate ∧ a.operators = b.operators := by
  refine ⟨rfl, ?_⟩
  exact (target_settles_evaluate _ _).2 (by decide) (by decide) rfl

end Expr

end Arith64

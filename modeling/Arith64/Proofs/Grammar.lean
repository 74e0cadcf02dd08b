import Arith64.Reference.Text
import Arith64.Reference.Token

/-!
# The grammar of the reference dialect

Which lexemes stand for which expression. Blanks, places, leading zeros and the
depth of nesting are not part of it. The only freedom is the sign of a zero.
-/

namespace Arith64

/-! ## Around the operands -/

def BinOp.opening (op : BinOp) : List Lexeme :=
  match op.callName? with
  | some name => [.name name, .openParen]
  | none => [.openParen]

def BinOp.separator : BinOp → Lexeme
  | .add => .plus
  | .sub => .minus
  | .mul => .star
  | .div | .rem | .highMul => .comma

theorem BinOp.name_not_mem_opening (op : BinOp) : Lexeme.name "i64" ∉ op.opening := by
  cases op <;> decide

theorem BinOp.separator_ne_name (op : BinOp) {f : String} : op.separator ≠ .name f := by
  cases op <;> simp [BinOp.separator]

/-! ## One way to write each expression -/

/-- The lexemes of a literal, with its sign and its magnitude. -/
def literalLexemes (negative : Bool) (m : Nat) : List Lexeme :=
  .name "i64" :: .openParen :: ((if negative then [.minus] else []) ++ [.integer m, .closeParen])

def Expr.lexemes : Expr → List Lexeme
  | .literal v => literalLexemes (v.toInt < 0) v.toInt.natAbs
  | .negate e => .minus :: e.lexemes
  | .binary op l r => op.opening ++ (l.lexemes ++ op.separator :: (r.lexemes ++ [.closeParen]))
  | .group e => .openParen :: (e.lexemes ++ [.closeParen])

/-! ## Every way to write them -/

/-- The lexemes that stand for an expression. A literal has the value of its sign and magnitude. -/
inductive Spells : Expr → List Lexeme → Prop
  | literal {v : Int64} {negative : Bool} {m : Nat}
    (h : v.toInt = if negative then -(m : Int) else m) :
    Spells (.literal v) (literalLexemes negative m)
  | negate {e : Expr} {ls : List Lexeme} (h : Spells e ls) : Spells (.negate e) (.minus :: ls)
  | binary {op : BinOp} {l r : Expr} {ls rs : List Lexeme} (hl : Spells l ls) (hr : Spells r rs) :
    Spells (.binary op l r) (op.opening ++ (ls ++ op.separator :: (rs ++ [.closeParen])))
  | group {e : Expr} {ls : List Lexeme} (h : Spells e ls) :
    Spells (.group e) (.openParen :: (ls ++ [.closeParen]))

/-- The second list is the first one, but some literals `0` of it have a minus sign. -/
inductive SignedZeros : List Lexeme → List Lexeme → Prop
  | nil : SignedZeros [] []
  | same {xs ys : List Lexeme} (x : Lexeme) (h : SignedZeros xs ys) :
    SignedZeros (x :: xs) (x :: ys)
  | zero {xs ys : List Lexeme} (h : SignedZeros xs ys) :
    SignedZeros (.name "i64" :: .openParen :: .integer 0 :: xs)
      (.name "i64" :: .openParen :: .minus :: .integer 0 :: ys)

/-! ## Both descriptions agree -/

namespace SignedZeros

theorem append_left {xs ys : List Lexeme} (front : List Lexeme) (h : SignedZeros xs ys) :
    SignedZeros (front ++ xs) (front ++ ys) := by
  induction front with
  | nil => exact h
  | cons x front ih => exact .same x ih

theorem refl (xs : List Lexeme) : SignedZeros xs xs := by
  simpa using nil.append_left xs

theorem of_cons {x : Lexeme} {xs zs : List Lexeme} (hx : x ≠ .name "i64")
    (h : SignedZeros (x :: xs) zs) : ∃ ys, zs = x :: ys ∧ SignedZeros xs ys := by
  cases h with
  | same _ h => exact ⟨_, rfl, h⟩
  | zero h => exact absurd rfl hx

theorem of_append {front xs zs : List Lexeme} (hfront : Lexeme.name "i64" ∉ front)
    (h : SignedZeros (front ++ xs) zs) : ∃ ys, zs = front ++ ys ∧ SignedZeros xs ys := by
  induction front generalizing zs with
  | nil => exact ⟨zs, rfl, h⟩
  | cons x front ih =>
    rw [List.mem_cons, not_or] at hfront
    obtain ⟨zs, rfl, hzs⟩ := of_cons (Ne.symm hfront.1) h
    obtain ⟨ys, rfl, hys⟩ := ih hfront.2 hzs
    exact ⟨ys, rfl, hys⟩

theorem of_literal {v : Int64} {xs zs : List Lexeme}
    (h : SignedZeros ((Expr.literal v).lexemes ++ xs) zs) :
    ∃ ls ys, zs = ls ++ ys ∧ Spells (.literal v) ls ∧ SignedZeros xs ys := by
  have hv : v.toInt = if v.toInt < 0 then -(v.toInt.natAbs : Int) else v.toInt.natAbs := by
    split <;> omega
  generalize hm : v.toInt.natAbs = m at hv
  unfold Expr.lexemes at h
  rw [hm] at h
  by_cases hneg : v.toInt < 0
  · -- A minus sign is there already.
    simp only [hneg, if_true, decide_true] at h hv
    cases h with
    | same _ h =>
      have htail : SignedZeros ([.openParen, .minus, .integer m, .closeParen] ++ xs) _ := h
      obtain ⟨ys, rfl, hys⟩ := of_append (by simp) htail
      exact ⟨literalLexemes true m, ys, rfl, .literal (by simpa using hv), hys⟩
  · simp only [hneg, if_false, decide_false] at h hv
    cases h with
    | same _ h =>
      have htail : SignedZeros ([.openParen, .integer m, .closeParen] ++ xs) _ := h
      obtain ⟨ys, rfl, hys⟩ := of_append (by simp) htail
      exact ⟨literalLexemes false m, ys, rfl, .literal (by simpa using hv), hys⟩
    | zero h =>
      obtain ⟨ys, rfl, hys⟩ := of_cons (by simp) h
      exact ⟨literalLexemes true 0, ys, rfl, .literal (by simpa using hv), hys⟩

theorem of_lexemes (e : Expr) {xs zs : List Lexeme} (h : SignedZeros (e.lexemes ++ xs) zs) :
    ∃ ls ys, zs = ls ++ ys ∧ Spells e ls ∧ SignedZeros xs ys := by
  induction e generalizing xs zs with
  | literal v => exact of_literal h
  | negate e ih =>
    obtain ⟨zs, rfl, h1⟩ := of_cons (by simp) h
    obtain ⟨ls, ys, rfl, hls, h2⟩ := ih h1
    exact ⟨.minus :: ls, ys, rfl, .negate hls, h2⟩
  | binary op l r ihl ihr =>
    simp only [Expr.lexemes, List.append_assoc, List.cons_append, List.nil_append] at h
    obtain ⟨zs, rfl, h1⟩ := of_append op.name_not_mem_opening h
    obtain ⟨ls, zs, rfl, hls, h2⟩ := ihl h1
    obtain ⟨zs, rfl, h3⟩ := of_cons op.separator_ne_name h2
    obtain ⟨rs, zs, rfl, hrs, h4⟩ := ihr h3
    obtain ⟨ys, rfl, h5⟩ := of_cons (by simp) h4
    exact ⟨_, ys, by simp, .binary hls hrs, h5⟩
  | group e ih =>
    simp only [Expr.lexemes, List.append_assoc, List.cons_append, List.nil_append] at h
    obtain ⟨zs, rfl, h1⟩ := of_cons (by simp) h
    obtain ⟨ls, zs, rfl, hls, h2⟩ := ih h1
    obtain ⟨ys, rfl, h3⟩ := of_cons (by simp) h2
    exact ⟨_, ys, by simp, .group hls, h3⟩

end SignedZeros

namespace Spells

theorem signedZeros {e : Expr} {ls : List Lexeme} (h : Spells e ls) {xs ys : List Lexeme}
    (hrest : SignedZeros xs ys) : SignedZeros (e.lexemes ++ xs) (ls ++ ys) := by
  induction h generalizing xs ys with
  | @literal v negative m h =>
    cases negative with
    | false =>
      have hneg : ¬ v.toInt < 0 := by simp at h; omega
      have hm : v.toInt.natAbs = m := by simp at h; omega
      simp only [Expr.lexemes, hneg, hm, decide_false]
      exact hrest.append_left _
    | true =>
      have hm : v.toInt.natAbs = m := by simp at h; omega
      by_cases hneg : v.toInt < 0
      · simp only [Expr.lexemes, hneg, hm, decide_true]
        exact hrest.append_left _
      · -- a sign in front of a word that is not negative
        have hzero : m = 0 := by simp at h; omega
        simp only [Expr.lexemes, hneg, hm, hzero, decide_false]
        exact .zero (.same _ hrest)
  | negate _ ih => exact .same _ (ih hrest)
  | binary _ _ ihl ihr =>
    simp only [Expr.lexemes, List.append_assoc, List.cons_append, List.nil_append]
    exact SignedZeros.append_left _ (ihl (.same _ (ihr (.same _ hrest))))
  | group _ ih =>
    simp only [Expr.lexemes, List.append_assoc, List.cons_append, List.nil_append]
    exact .same _ (ih (.same _ hrest))

theorem iff_signedZeros {e : Expr} {ls : List Lexeme} :
    Spells e ls ↔ SignedZeros e.lexemes ls := by
  constructor
  · intro h
    simpa using h.signedZeros .nil
  · intro h
    rw [← List.append_nil e.lexemes] at h
    obtain ⟨ls, ys, rfl, hls, hys⟩ := SignedZeros.of_lexemes e h
    cases hys
    simpa using hls

theorem lexemes (e : Expr) : Spells e e.lexemes := iff_signedZeros.mpr (.refl _)

end Spells

end Arith64

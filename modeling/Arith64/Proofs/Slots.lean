import Mathlib
import Arith64.Proofs.NestingLimit

/-!
# Literals by number

The literals of an expression are numbered from the left, in the tree and in its
lexemes alike. What is around a literal does not depend on the literal, so any
other one can take its place, and an error there is an error of the whole.
-/

namespace Arith64

variable {e l r : Expr} {op : BinOp} {k m : Nat} {v w : Int64} {negative : Bool}
  {ls rs front back : List Lexeme}

/-! ## In the tree -/

/-- The expression with another value in its literal number `k`, counted from the left. -/
def Expr.setLiteral : Expr → (k : Nat) → Int64 → Expr
  | literal v, k, w => literal (if k = 0 then w else v)
  | negate e, k, w => negate (e.setLiteral k w)
  | binary op l r, k, w =>
    if k < l.literalCount then binary op (l.setLiteral k w) r
    else binary op l (r.setLiteral (k - l.literalCount) w)
  | group e, k, w => group (e.setLiteral k w)

theorem Expr.depth_setLiteral (e : Expr) (k : Nat) (w : Int64) :
    (e.setLiteral k w).depth = e.depth := by
  induction e generalizing k with
  | literal v => rfl
  | negate e ih => simp [setLiteral, depth, ih]
  | binary op l r ihl ihr =>
    rw [setLiteral]
    split
    · simp [depth, ihl]
    · simp [depth, ihr]
  | group e ih => simp [setLiteral, depth, ih]

/-! ## In the lexemes -/

/-- In the lexemes of an expression, `front` is what is in front of its literal number `k`, and
`back` what is behind it. -/
inductive Slot : Expr → Nat → (front back : List Lexeme) → Prop where
  | literal {v : Int64} : Slot (.literal v) 0 [] []
  | negate {e : Expr} {k : Nat} {front back : List Lexeme} (h : Slot e k front back) :
    Slot (.negate e) k (.minus :: front) back
  | left {op : BinOp} {l r : Expr} {k : Nat} {rs front back : List Lexeme}
    (h : Slot l k front back) (hr : Spells r rs) :
    Slot (.binary op l r) k (op.opening ++ front)
      (back ++ op.separator :: (rs ++ [.closeParen]))
  | right {op : BinOp} {l r : Expr} {k : Nat} {ls front back : List Lexeme}
    (hl : Spells l ls) (h : Slot r k front back) :
    Slot (.binary op l r) (l.literalCount + k) (op.opening ++ (ls ++ op.separator :: front))
      (back ++ [.closeParen])
  | group {e : Expr} {k : Nat} {front back : List Lexeme} (h : Slot e k front back) :
    Slot (.group e) k (.openParen :: front) (back ++ [.closeParen])

theorem exists_slot (h : Spells e ls) (hk : k < e.literalCount) :
    ∃ front back negative m, Slot e k front back ∧
      ls = front ++ (literalLexemes negative m ++ back) := by
  induction h generalizing k with
  | @literal v negative m _ =>
    obtain rfl : k = 0 := Nat.lt_one_iff.mp hk
    exact ⟨[], [], negative, m, .literal, by simp⟩
  | negate _ ih =>
    obtain ⟨front, back, negative, m, hslot, rfl⟩ := ih hk
    exact ⟨_, _, negative, m, .negate hslot, rfl⟩
  | @binary op l r ls rs hl hr ihl ihr =>
    by_cases hleft : k < l.literalCount
    · obtain ⟨front, back, negative, m, hslot, rfl⟩ := ihl hleft
      exact ⟨_, _, negative, m, .left hslot hr, by simp⟩
    · obtain ⟨j, rfl⟩ := Nat.exists_eq_add_of_le (Nat.le_of_not_lt hleft)
      obtain ⟨front, back, negative, m, hslot, rfl⟩ := ihr (Nat.lt_of_add_lt_add_left hk)
      exact ⟨_, _, negative, m, .right hl hslot, by simp⟩
  | group _ ih =>
    obtain ⟨front, back, negative, m, hslot, rfl⟩ := ih hk
    exact ⟨_, _, negative, m, .group hslot, by simp⟩

namespace Slot

theorem lt_literalCount (h : Slot e k front back) : k < e.literalCount := by
  induction h with
  | literal => exact Nat.one_pos
  | negate _ ih => exact ih
  | left _ _ ih => exact Nat.lt_add_right _ ih
  | right _ _ ih => exact Nat.add_lt_add_left ih _
  | group _ ih => exact ih

theorem spells (h : Slot e k front back) (hw : w.toInt = if negative then -(m : Int) else m) :
    Spells (e.setLiteral k w) (front ++ (literalLexemes negative m ++ back)) := by
  induction h with
  | literal =>
    rw [List.nil_append, List.append_nil]
    exact .literal hw
  | negate _ ih => exact .negate ih
  | left h hr ih =>
    rw [Expr.setLiteral, if_pos h.lt_literalCount]
    simpa using Spells.binary ih hr
  | right hl _ ih =>
    rw [Expr.setLiteral, if_neg (by omega), Nat.add_sub_cancel_left]
    simpa using Spells.binary hl ih
  | group _ ih => simpa [Expr.setLiteral] using Spells.group ih

theorem readExpr_error {s s' : TokenStream} {budget : Nat} {err : SyntaxError}
    (h : Slot e k front back) (hdepth : e.depth < budget) (hshows : s.Shows front s')
    (herr : ∀ budget, TokenStream.readExpr (budget + 1) s' = .error err) :
    TokenStream.readExpr budget s = .error err := by
  induction h generalizing budget s with
  | literal =>
    obtain ⟨budget, rfl⟩ := Nat.exists_eq_add_one_of_ne_zero (Nat.ne_zero_of_lt hdepth)
    obtain rfl := TokenStream.shows_nil.mp hshows
    exact herr budget
  | negate _ ih =>
    obtain ⟨budget, rfl⟩ := Nat.exists_eq_add_one_of_ne_zero (Nat.ne_zero_of_lt hdepth)
    obtain ⟨hfront, hrest⟩ := (TokenStream.shows_cons (by simp)).mp hshows
    exact TokenStream.readExpr_negate_error hfront (ih (Nat.lt_of_succ_lt_succ hdepth) hrest)
  | left _ _ ih =>
    obtain ⟨budget, rfl⟩ := Nat.exists_eq_add_one_of_ne_zero (Nat.ne_zero_of_lt hdepth)
    obtain ⟨hdl, -⟩ := Nat.max_lt.mp (Nat.lt_of_succ_lt_succ hdepth)
    obtain ⟨s0, hopen, hrest⟩ := TokenStream.shows_append.mp hshows
    exact TokenStream.readExpr_left_error hopen (ih hdl hrest)
  | @right op _ _ _ _ _ _ hl _ ih =>
    obtain ⟨budget, rfl⟩ := Nat.exists_eq_add_one_of_ne_zero (Nat.ne_zero_of_lt hdepth)
    obtain ⟨hdl, hdr⟩ := Nat.max_lt.mp (Nat.lt_of_succ_lt_succ hdepth)
    rw [← List.singleton_append] at hshows
    simp only [TokenStream.shows_append] at hshows
    obtain ⟨s0, hopen, s1, hleft, s2, hsep, hrest⟩ := hshows
    exact TokenStream.readExpr_right_error hopen (TokenStream.readExpr_of_spells hl hdl hleft) hsep
      (ih hdr hrest)
  | group _ ih =>
    obtain ⟨budget, rfl⟩ := Nat.exists_eq_add_one_of_ne_zero (Nat.ne_zero_of_lt hdepth)
    obtain ⟨hfront, hrest⟩ := (TokenStream.shows_cons (by simp)).mp hshows
    have hopen : s.Shows (BinOp.opening .add) s.rest :=
      (TokenStream.shows_singleton (by simp)).mpr ⟨hfront, rfl⟩
    exact TokenStream.readExpr_left_error hopen (ih (Nat.lt_of_succ_lt_succ hdepth) hrest)

end Slot

/-! ## In the tokens -/

def Lexeme.isInteger : Lexeme → Bool
  | integer _ => true
  | _ => false

/-- From which byte to which the sign and the digits of each literal go. A minus sign belongs to
digits that are the next token, and `sign` is where one stands in front of these tokens. -/
def literalPlaces (sign : Option Nat) : List Token → List (Nat × Nat)
  | [] => []
  | t :: ts =>
    match t.lexeme with
    | .integer _ => (sign.getD t.start, t.stop) :: literalPlaces none ts
    | .minus => literalPlaces (some t.start) ts
    | _ => literalPlaces none ts

section Places

variable {sign : Option Nat} {xs ys : List Token} {t : Token}

theorem length_literalPlaces :
    (literalPlaces sign xs).length = (xs.map Token.lexeme).countP Lexeme.isInteger := by
  induction xs generalizing sign with
  | nil => rfl
  | cons t ts ih =>
    rw [literalPlaces, List.map_cons, List.countP_cons]
    cases t.lexeme <;> simp [ih, Lexeme.isInteger]

theorem literalPlaces_append (ht : t.lexeme = .openParen) :
    literalPlaces sign (xs ++ t :: ys) = literalPlaces sign xs ++ literalPlaces none ys := by
  induction xs generalizing sign with
  | nil => simp [literalPlaces, ht]
  | cons x xs ih =>
    rw [List.cons_append, literalPlaces, literalPlaces]
    cases x.lexeme <;> simp [ih]

theorem countP_opening (op : BinOp) : op.opening.countP Lexeme.isInteger = 0 := by
  cases op <;> rfl

theorem isInteger_separator (op : BinOp) : op.separator.isInteger = false := by
  cases op <;> rfl

theorem isInteger_closeParen : Lexeme.closeParen.isInteger = false := rfl

theorem Spells.countP_isInteger (h : Spells e ls) :
    ls.countP Lexeme.isInteger = e.literalCount := by
  induction h with
  | @literal _ negative m _ => cases negative <;> rfl
  | negate _ ih => simpa [Expr.literalCount, Lexeme.isInteger] using ih
  | @binary op l r ls rs _ _ ihl ihr =>
    simp [Expr.literalCount, countP_opening, isInteger_separator, isInteger_closeParen, ihl, ihr]
  | group _ ih => simpa [Expr.literalCount, Lexeme.isInteger] using ih

theorem Slot.countP_isInteger (h : Slot e k front back) : front.countP Lexeme.isInteger = k := by
  induction h with
  | literal => rfl
  | negate _ ih => simpa [Lexeme.isInteger] using ih
  | left _ _ ih => simp [countP_opening, ih]
  | right hl _ ih => simp [countP_opening, isInteger_separator, hl.countP_isInteger, ih]
  | group _ ih => simpa [Lexeme.isInteger] using ih

end Places

/-! ## Around a literal -/

/-- The tokens of an expression in front of the sign and the digits of its literal number `k`, these
two or one, and the tokens behind them. -/
structure Around (tokens : List Token) (e : Expr) (k : Nat) (before inside after : List Token)
    (front back : List Lexeme) : Prop where
  split : tokens = before ++ (inside ++ after)
  slot : Slot e k front back
  opened : before.map Token.lexeme = front ++ [.name "i64", .openParen]
  closed : after.map Token.lexeme = .closeParen :: back

theorem exists_around {tokens : List Token} {start stop : Nat}
    (h : Spells e (tokens.map Token.lexeme))
    (hplace : (literalPlaces none tokens)[k]? = some (start, stop)) :
    ∃ before inside after front back first last m,
      Around tokens e k before inside after front back ∧
      first ∈ inside.head? ∧ first.start = start ∧
      last ∈ inside.getLast? ∧ last.stop = stop ∧ last.lexeme = .integer m := by
  have hk : k < e.literalCount := by
    have hlength : (literalPlaces none tokens).length = _ := length_literalPlaces
    rw [← h.countP_isInteger, ← hlength]
    exact (List.getElem?_eq_some_iff.mp hplace).1
  obtain ⟨front, back, negative, m, hslot, hlexemes⟩ := exists_slot h hk
  obtain ⟨tf, tl, rfl, rfl, hrest⟩ := List.map_eq_append_iff.mp hlexemes
  obtain ⟨tn, tl, rfl, hn, hrest⟩ := List.map_eq_cons_iff.mp hrest
  obtain ⟨tp, tl, rfl, hp, hrest⟩ := List.map_eq_cons_iff.mp hrest
  have hnumber : (literalPlaces none (tf ++ [tn])).length = k := by
    rw [length_literalPlaces, ← hslot.countP_isInteger]
    simp [hn, Lexeme.isInteger]
  rw [← List.singleton_append, ← List.append_assoc, literalPlaces_append hp,
    List.getElem?_append_right (by omega), hnumber, Nat.sub_self] at hplace
  have hopened : (tf ++ [tn, tp]).map Token.lexeme =
      tf.map Token.lexeme ++ [.name "i64", .openParen] := by
    simp [hn, hp]
  cases negative with
  | false =>
    obtain ⟨ti, tl, rfl, hi, hclosed⟩ := List.map_eq_cons_iff.mp hrest
    simp only [literalPlaces, hi, Option.getD_none, List.getElem?_cons_zero, Option.some.injEq,
      Prod.mk.injEq] at hplace
    exact ⟨_, [ti], tl, _, back, ti, ti, m, ⟨by simp, hslot, hopened, hclosed⟩, rfl, hplace.1, rfl,
      hplace.2, hi⟩
  | true =>
    obtain ⟨ts, tl, rfl, hs, hrest⟩ := List.map_eq_cons_iff.mp hrest
    obtain ⟨ti, tl, rfl, hi, hclosed⟩ := List.map_eq_cons_iff.mp hrest
    simp only [literalPlaces, hs, hi, Option.getD_some, List.getElem?_cons_zero, Option.some.injEq,
      Prod.mk.injEq] at hplace
    exact ⟨_, [ts, ti], tl, _, back, ts, ti, m, ⟨by simp, hslot, hopened, hclosed⟩, rfl, hplace.1,
      rfl, hplace.2, hi⟩

end Arith64

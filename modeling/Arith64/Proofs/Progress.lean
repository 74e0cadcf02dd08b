import Mathlib
import Arith64.Proofs.Cursor

/-!
# How far routines get

No routine takes the end of the text for anything else, so each token that it
takes moves the cursor on. An expression that is read ends behind its first
token, and the ones inside it begin behind that token.
-/

namespace Arith64

/-! ## Tokens from a place on -/

namespace TokenStream

/-- The stream without its first tokens. -/
def drop (s : TokenStream) (n : Nat) : TokenStream := ⟨s.tokens.drop n, s.stop⟩

variable {s : TokenStream} {p : Nat}

theorem length_toList : s.toList.length = s.tokens.length + 1 := by
  simp [toList]

theorem getElem?_toList (h : p < s.toList.length) : s.toList[p]? = some (s.drop p).front := by
  rw [length_toList] at h
  rcases Nat.lt_or_eq_of_le (Nat.le_of_lt_succ h) with hp | rfl
  · rw [toList, List.getElem?_append_left hp, drop, front, List.drop_eq_getElem_cons hp]
    simp [hp]
  · simp [toList, drop, front, endMark]

theorem rest_drop (h : p < s.toList.length) :
    (s.drop p).rest = s.drop (Reader.onward s.toList p) := by
  rw [length_toList] at h
  simp only [rest, drop, Reader.onward, length_toList, List.tail_drop]
  split
  · rfl
  · rw [List.drop_eq_nil_of_le (by omega), List.drop_eq_nil_of_le (by omega)]

theorem onward_lt (h : p < s.toList.length) : Reader.onward s.toList p < s.toList.length := by
  unfold Reader.onward
  split <;> assumption

theorem onward_of_front_ne (h : (s.drop p).front.lexeme ≠ .endOfText) :
    p + 1 < s.toList.length ∧ Reader.onward s.toList p = p + 1 := by
  have hp : p + 1 < s.toList.length := by
    rw [length_toList]
    by_contra hp
    simp [drop, front, endMark, List.drop_eq_nil_of_le (show s.tokens.length ≤ p by omega)] at h
  exact ⟨hp, if_pos hp⟩

end TokenStream

/-! ## What routines meet -/

namespace Routine

variable {α β : Type} {s : TokenStream} {floor p : Nat} {post : α → Nat → Prop}

/-- From this place on, a routine begins expressions at `floor` or behind it only, and what it
comes to and where it ends meet `post`. An expression inside is taken to end behind its start. -/
def Meets (s : TokenStream) (floor : Nat) : Routine α → (post : α → Nat → Prop) → Nat → Prop
  | done a, post, p => post a p
  | fail _, _, _ => True
  | peek next, post, p => (next (s.drop p).front).Meets s floor post p
  | bump next, post, p => (next (s.drop p).front).Meets s floor post (Reader.onward s.toList p)
  | inner next, post, p =>
    floor ≤ p ∧ ∀ e q, p < q → q < s.toList.length → (next e).Meets s floor post q

theorem meets_bind {x : Routine α} {f : α → Routine β} {post : β → Nat → Prop} :
    (x >>= f).Meets s floor post p ↔
      x.Meets s floor (fun a q => (f a).Meets s floor post q) p := by
  rw [bind_eq]
  induction x generalizing p with
  | done a => rfl
  | fail err => rfl
  | peek next ih => exact ih _
  | bump next ih => exact ih _
  | inner next ih =>
    refine and_congr_right fun _ => ?_
    refine forall_congr' fun e => forall_congr' fun q => ?_
    exact forall_congr' fun _ => forall_congr' fun _ => ih e

theorem Meets.consume {wanted : Lexeme} {post : Bool → Nat → Prop} (hwanted : wanted ≠ .endOfText)
    (hthere : p + 1 < s.toList.length → post true (p + 1)) (helse : post false p) :
    (consume wanted).Meets s floor post p := by
  change (if _ then _ else _ : Routine Bool).Meets s floor post p
  split
  · rename_i hfront
    obtain ⟨hp, honward⟩ := TokenStream.onward_of_front_ne (hfront.trans_ne hwanted)
    change post true _
    rw [honward]
    exact hthere hp
  · exact helse

theorem Meets.expect {wanted : Lexeme} {post : Unit → Nat → Prop} (hwanted : wanted ≠ .endOfText)
    (hthere : p + 1 < s.toList.length → post () (p + 1)) :
    (expect wanted).Meets s floor post p := by
  change (if _ then _ else _ : Routine Unit).Meets s floor post p
  split
  · rename_i hfront
    obtain ⟨hp, honward⟩ := TokenStream.onward_of_front_ne (hfront.trans_ne hwanted)
    change post () _
    rw [honward]
    exact hthere hp
  · trivial

theorem Meets.take {f : Token → Routine α}
    (hend : ∀ t, t.lexeme = .endOfText → ∃ err, f t = fail err)
    (hnext : ∀ t, p + 1 < s.toList.length → (f t).Meets s floor post (p + 1)) :
    (take >>= f).Meets s floor post p := by
  rw [meets_bind]
  change (f (s.drop p).front).Meets s floor post _
  by_cases hfront : (s.drop p).front.lexeme = .endOfText
  · obtain ⟨err, herr⟩ := hend _ hfront
    rw [herr]
    trivial
  · obtain ⟨hp, honward⟩ := TokenStream.onward_of_front_ne hfront
    rw [honward]
    exact hnext _ hp

theorem Meets.inner {f : Expr → Routine α} (hfloor : floor ≤ p)
    (hnext : ∀ e q, p < q → q < s.toList.length → (f e).Meets s floor post q) :
    (readInner >>= f).Meets s floor post p := by
  rw [meets_bind]
  exact ⟨hfloor, hnext⟩

section Readers

variable {post : Expr → Nat → Prop} (hpost : ∀ e q, p < q → q < s.toList.length → post e q)
include hpost

theorem Meets.digits {negative : Bool} : (digits negative).Meets s floor post p := by
  refine .take (fun t ht => ⟨_, by rw [ht]⟩) fun t _ => ?_
  split
  · split
    · rw [meets_bind]
      exact .expect (by simp) fun hclose => hpost _ _ (by omega) hclose
    · trivial
  · trivial

theorem Meets.literal : literal.Meets s floor post p := by
  unfold Routine.literal
  simp only [meets_bind]
  refine .expect (by simp) fun _ => .consume (by simp) (fun _ => ?_) ?_
  all_goals exact .digits fun e q hq => hpost e q (by omega)

theorem Meets.right {op : BinOp} {l : Expr} (hfloor : floor ≤ p) :
    (do let right ← readInner; Routine.expect .closeParen; return .binary op l right :
      Routine Expr).Meets s floor post p := by
  refine .inner hfloor fun r q hq _ => ?_
  rw [meets_bind]
  exact .expect (by simp) fun hclose => hpost _ _ (by omega) hclose

theorem Meets.paren (hfloor : floor ≤ p) : paren.Meets s floor post p := by
  refine .inner hfloor fun l q hq _ => ?_
  rw [meets_bind]
  refine .consume (by simp) ?_ ?_
  · exact fun hclose => hpost _ _ (by omega) hclose
  · refine .take (fun t ht => ⟨_, by rw [ht]; rfl⟩) fun t _ => ?_
    split
    · exact .right (fun e q hq => hpost e q (by omega)) (by omega)
    · trivial

theorem Meets.named {text : String} {start : Nat} (hfloor : floor ≤ p) :
    (named text start).Meets s floor post p := by
  unfold Routine.named
  split
  · exact .literal hpost
  · split
    · rw [meets_bind]
      refine .expect (by simp) fun _ => .inner (by omega) fun l q hq _ => ?_
      rw [meets_bind]
      refine .expect (by simp) fun _ => ?_
      exact .right (fun e q hq => hpost e q (by omega)) (by omega)
    · trivial

theorem Meets.primary (hfloor : floor ≤ p + 1) : primary.Meets s floor post p := by
  refine .take (fun t ht => ⟨_, by rw [ht]⟩) fun t _ => ?_
  split
  · exact .paren (fun e q hq => hpost e q (by omega)) hfloor
  · exact .named (fun e q hq => hpost e q (by omega)) hfloor
  · trivial

theorem Meets.expr (hfloor : floor ≤ p + 1) : expr.Meets s floor post p := by
  unfold Routine.expr
  rw [meets_bind]
  refine .consume (by simp) (fun _ => ?_) ?_
  · exact .inner hfloor fun e q hq => hpost _ q (by omega)
  · exact .primary hpost hfloor

end Readers

/-! ## What routines gain -/

/-- From this place on, a routine stays at `floor` or behind it. -/
def Gains (s : TokenStream) (floor : Nat) (routine : Routine Expr) (p : Nat) : Prop :=
  routine.Meets s floor (fun _ q => floor ≤ q ∧ q < s.toList.length) p

theorem gains_expr : expr.Gains s (p + 1) p :=
  .expr (fun _ _ hq hlt => ⟨hq, hlt⟩) (Nat.le_refl _)

theorem gains_text : text.Gains s 0 0 := by
  refine .inner (Nat.le_refl 0) fun e q _ hq => ?_
  rw [meets_bind]
  -- the one lexeme that can be taken without a move of the cursor
  change (if _ then _ else _ : Routine Unit).Meets s 0 _ q
  split
  · exact ⟨Nat.zero_le _, TokenStream.onward_lt hq⟩
  · trivial

end Routine

end Arith64

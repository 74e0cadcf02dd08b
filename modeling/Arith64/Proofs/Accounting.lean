import Mathlib
import Arith64.Proofs.Drawing

/-!
# What a draw takes from its source

An expression takes a fixed number of words for each of its nodes, and one more
where a pick was too near to the next one. It depends on those words alone, so
every source that gives them gives the expression and is left behind them.
-/

namespace Arith64

/-! ## Words that a source gives -/

/-- A word as it was asked for. -/
inductive Answer where
  | long (word : UInt64)
  | short (word : UInt32)

/-- The source gives these words one after another, and is `t` behind them. -/
inductive Gives {σ : Type} [RandomSource σ] : σ → List Answer → σ → Prop
  | nil {s : σ} : Gives s [] s
  | long {s t : σ} {answers : List Answer} (h : Gives (RandomSource.next64 s).2 answers t) :
    Gives s (.long (RandomSource.next64 s).1 :: answers) t
  | short {s t : σ} {answers : List Answer} (h : Gives (RandomSource.next32 s).2 answers t) :
    Gives s (.short (RandomSource.next32 s).1 :: answers) t

namespace Gives

variable {σ : Type} [RandomSource σ] {s t u : σ} {xs ys : List Answer}

theorem append (hs : Gives s xs t) (ht : Gives t ys u) : Gives s (xs ++ ys) u := by
  induction hs with
  | nil => exact ht
  | long _ ih => exact .long (ih ht)
  | short _ ih => exact .short (ih ht)

theorem split (h : Gives s (xs ++ ys) u) : ∃ t, Gives s xs t ∧ Gives t ys u := by
  induction xs generalizing s with
  | nil => exact ⟨s, .nil, h⟩
  | cons x xs ih =>
    cases h with
    | long h =>
      obtain ⟨t, hxs, hys⟩ := ih h
      exact ⟨t, .long hxs, hys⟩
    | short h =>
      obtain ⟨t, hxs, hys⟩ := ih h
      exact ⟨t, .short hxs, hys⟩

theorem long_iff {word : UInt64} : Gives s (.long word :: xs) t ↔
    (RandomSource.next64 s).1 = word ∧ Gives (RandomSource.next64 s).2 xs t := by
  constructor
  · rintro ⟨⟩
    exact ⟨rfl, ‹_›⟩
  · rintro ⟨rfl, h⟩
    exact .long h

theorem short_iff {word : UInt32} : Gives s (.short word :: xs) t ↔
    (RandomSource.next32 s).1 = word ∧ Gives (RandomSource.next32 s).2 xs t := by
  constructor
  · rintro ⟨⟩
    exact ⟨rfl, ‹_›⟩
  · rintro ⟨rfl, h⟩
    exact .short h

theorem nil_iff : Gives s [] t ↔ s = t := by
  constructor
  · rintro ⟨⟩
    rfl
  · rintro rfl
    exact .nil

theorem counted (h : Gives s xs t) (n : Nat) :
    Gives (⟨s, n⟩ : Counted σ) xs ⟨t, n + xs.length⟩ := by
  induction h generalizing n with
  | nil => exact .nil
  | @long s t answers _ ih =>
    have hnext := ih (n + 1)
    rw [Nat.add_right_comm] at hnext
    exact .long hnext
  | @short s t answers _ ih =>
    have hnext := ih (n + 1)
    rw [Nat.add_right_comm] at hnext
    exact .short hnext

end Gives

/-! ## Actions that read some words and no others -/

/-- The action reads words off any source until it has its result. `P` holds of the result and the
number of words, and every other source that gives these words is read in the same way. -/
def Reads {α : Type} (x : ∀ (σ : Type) [RandomSource σ], StateM σ α) (P : α → Nat → Prop) : Prop :=
  ∀ (σ : Type) [RandomSource σ] (s : σ), ∃ answers,
    Gives s answers (x σ s).2 ∧ P (x σ s).1 answers.length ∧
      ∀ (τ : Type) [RandomSource τ] (t t' : τ), Gives t answers t' → x τ t = ((x σ s).1, t')

namespace Reads

variable {α β : Type} {x : ∀ (σ : Type) [RandomSource σ], StateM σ α} {P Q : α → Nat → Prop}

theorem bind {f : α → ∀ (σ : Type) [RandomSource σ], StateM σ β} {R : β → Nat → Prop}
    (hx : Reads x P) (hf : ∀ a m, P a m → Reads (f a) fun b n => R b (m + n)) :
    Reads (fun σ _ => x σ >>= fun a => f a σ) R := by
  intro σ _ s
  obtain ⟨front, hfront, hP, hsame⟩ := hx σ s
  obtain ⟨back, hback, hR, hsame'⟩ := hf _ _ hP σ (x σ s).2
  refine ⟨front ++ back, hfront.append hback, ?_, ?_⟩
  · rw [List.length_append]
    exact hR
  · intro τ _ t t' ht
    obtain ⟨u, hu, ht'⟩ := ht.split
    dsimp only
    rw [draw_bind, hsame τ t u hu]
    exact hsame' τ u t' ht'

theorem pure {a : α} (h : P a 0) : Reads (fun _ _ => pure a) P := by
  intro σ _ s
  refine ⟨[], .nil, h, ?_⟩
  rintro τ _ t _ ⟨⟩
  rfl

theorem map {f : α → β} {R : β → Nat → Prop} (hx : Reads x P) (hf : ∀ a n, P a n → R (f a) n) :
    Reads (fun σ _ => f <$> x σ) R := by
  intro σ _ s
  obtain ⟨answers, hgives, hP, hsame⟩ := hx σ s
  refine ⟨answers, hgives, hf _ _ hP, ?_⟩
  intro τ _ t t' ht
  dsimp only
  rw [draw_map, hsame τ t t' ht]
  rfl

end Reads

theorem reads_draw64 : Reads (fun _ _ => draw64) fun _ n => n = 1 := by
  intro σ _ s
  refine ⟨[.long (RandomSource.next64 s).1], .long .nil, rfl, ?_⟩
  intro τ _ t t' ht
  obtain ⟨hword, hsource⟩ := Gives.long_iff.mp ht
  exact Prod.ext hword (Gives.nil_iff.mp hsource)

theorem reads_draw32 : Reads (fun _ _ => draw32) fun _ n => n = 1 := by
  intro σ _ s
  refine ⟨[.short (RandomSource.next32 s).1], .short .nil, rfl, ?_⟩
  intro τ _ t t' ht
  obtain ⟨hword, hsource⟩ := Gives.short_iff.mp ht
  exact Prod.ext hword (Gives.nil_iff.mp hsource)

theorem reads_drawUnit : Reads (fun _ _ => drawUnit) fun _ n => n = 1 := by
  refine reads_draw64.bind ?_
  rintro word _ rfl
  exact .pure rfl

theorem reads_pick {size : Nat} {draw : ∀ (σ : Type) [RandomSource σ], StateM σ (Fin size)}
    {bound : Nat} (hbound : 0 < bound) (hdraw : Reads draw fun _ n => n = 1) :
    Reads (fun σ _ => pick size bound hbound (draw σ)) fun _ n => n = 1 ∨ n = 2 := by
  refine hdraw.bind ?_
  rintro word _ rfl
  dsimp only
  by_cases hlow : size - bound < word * bound % size
  · -- the first word leaves it open
    simp only [dif_pos hlow]
    refine hdraw.bind ?_
    rintro second _ rfl
    exact .pure (.inr rfl)
  · simp only [dif_neg hlow]
    exact .pure (.inl rfl)

theorem reads_drawOperator : Reads (fun _ _ => drawOperator) fun _ n => n = 1 ∨ n = 2 := by
  refine (reads_pick _ (reads_draw32.map fun _ _ h => h)).bind ?_
  intro index n hn
  exact .pure hn

theorem LiteralRange.reads_draw (range : LiteralRange) :
    Reads (fun _ _ => range.draw) fun _ n => n = 1 ∨ range = small ∧ n = 2 := by
  cases range with
  | full => exact reads_draw64.map fun _ _ h => .inl h
  | small =>
    refine (reads_pick _ (reads_draw64.map fun _ _ h => h)).bind ?_
    intro n m hm
    exact .pure (by simpa using hm)

/-! ## Expressions -/

namespace Expr

/-- The literals of an expression that come from the small range. Below a full range these are the
ones on the floor. -/
def smallLiterals (range : LiteralRange) (budget : Nat) (e : Expr) : List Int64 :=
  match range with
  | .small => e.literals
  | .full => e.literalsAt budget

/-- The words for an expression: one for each node, operator and literal, and up to one more for
each operator and each small literal. -/
structure Cost (range : LiteralRange) (budget : Nat) (e : Expr) (words : Nat) : Prop where
  at_least : e.nodeCount + e.binaryCount + e.literals.length ≤ words
  at_most : words ≤ e.nodeCount + e.binaryCount + e.literals.length +
    (e.binaryCount + (e.smallLiterals range budget).length)

section Cost

variable {range : LiteralRange} {budget m n k : Nat} {v : Int64} {e l r : Expr} {op : BinOp}

theorem binaryCount_binary :
    (binary op l r).binaryCount = l.binaryCount + r.binaryCount + 1 := by
  simp [binaryCount, operators]

theorem cost_floor (hn : n = 1 ∨ n = 2) : Cost range 0 (literal v) (1 + n) := by
  cases range <;> constructor <;>
    simp [nodeCount, binaryCount, operators, literals, smallLiterals, literalsAt] <;> omega

theorem cost_literal (hn : n = 1 ∨ range = .small ∧ n = 2) :
    Cost range (budget + 1) (literal v) (1 + n) := by
  rcases hn with rfl | ⟨rfl, rfl⟩ <;> constructor <;>
    simp [nodeCount, binaryCount, operators, literals, smallLiterals]

theorem Cost.negate (h : Cost range budget e n) : Cost range (budget + 1) (negate e) (1 + n) := by
  obtain ⟨hleast, hmost⟩ := h
  cases range <;> constructor <;>
    simp only [nodeCount, binaryCount, operators, literals, smallLiterals, literalsAt] at * <;>
    omega

theorem Cost.group (h : Cost range budget e n) : Cost range (budget + 1) (group e) (1 + n) := by
  obtain ⟨hleast, hmost⟩ := h
  cases range <;> constructor <;>
    simp only [nodeCount, binaryCount, operators, literals, smallLiterals, literalsAt] at * <;>
    omega

theorem Cost.binary (hl : Cost range budget l m) (hk : k = 1 ∨ k = 2)
    (hr : Cost range budget r n) : Cost range (budget + 1) (binary op l r) (1 + (m + (k + n))) := by
  obtain ⟨hlleast, hlmost⟩ := hl
  obtain ⟨hrleast, hrmost⟩ := hr
  cases range <;> constructor <;>
    simp only [nodeCount, binaryCount_binary, literals, smallLiterals, literalsAt,
      List.length_append] at * <;>
    omega

end Cost

theorem reads_draw (range : LiteralRange) (budget : Nat) :
    Reads (fun _ _ => Expr.draw range budget) (Cost range budget) := by
  induction budget with
  | zero =>
    refine reads_drawUnit.bind ?_
    rintro _ _ rfl
    refine LiteralRange.small.reads_draw.bind ?_
    intro v n hn
    exact .pure (cost_floor (by simpa using hn))
  | succ budget ih =>
    refine reads_drawUnit.bind ?_
    rintro parts _ rfl
    cases Shape.ofUnit parts with
    | literal =>
      refine range.reads_draw.bind ?_
      intro v n hn
      exact .pure (cost_literal hn)
    | negate =>
      refine ih.bind ?_
      intro e n hn
      exact .pure hn.negate
    | binary =>
      refine ih.bind ?_
      intro l m hl
      refine reads_drawOperator.bind ?_
      intro op k hk
      refine ih.bind ?_
      intro r n hr
      exact .pure (hl.binary hk hr)
    | group =>
      refine ih.bind ?_
      intro e n hn
      exact .pure hn.group

/-! ## Expressions one after another -/

/-- An expression with the words that it depends on. No other words make a difference to it, and a
source that gives them is left behind them. -/
structure Portion (range : LiteralRange) where
  budget : Nat
  tree : Expr
  answers : List Answer
  settles : ∀ (τ : Type) [RandomSource τ] (t t' : τ), Gives t answers t' →
    Expr.draw range budget t = (tree, t')

section Portions

variable {σ : Type} [RandomSource σ]

theorem mapM_draw_cons (range : LiteralRange) (budget : Nat) (budgets : List Nat) (s : σ) :
    (budget :: budgets).mapM (Expr.draw range) s =
      let first := Expr.draw range budget s
      let others := budgets.mapM (Expr.draw range) first.2
      (first.1 :: others.1, others.2) := by
  rw [List.mapM_cons]
  rfl

theorem exists_portions (range : LiteralRange) (budgets : List Nat) (s : σ) :
    ∃ portions : List (Portion range), portions.map Portion.budget = budgets ∧
      (budgets.mapM (Expr.draw range) s).1 = portions.map Portion.tree ∧
      Gives s (portions.flatMap Portion.answers) (budgets.mapM (Expr.draw range) s).2 := by
  induction budgets generalizing s with
  | nil => exact ⟨[], rfl, rfl, .nil⟩
  | cons budget budgets ih =>
    obtain ⟨answers, hgives, -, hsame⟩ := reads_draw range budget σ s
    obtain ⟨portions, hbudgets, htrees, hothers⟩ := ih (Expr.draw range budget s).2
    refine ⟨⟨budget, _, answers, hsame⟩ :: portions, ?_, ?_, ?_⟩
    · rw [List.map_cons, hbudgets]
    · rw [mapM_draw_cons, List.map_cons, ← htrees]
    · rw [mapM_draw_cons, List.flatMap_cons]
      exact hgives.append hothers

end Portions

end Expr

/-- A source and the range of the literals that are drawn from it, kept for one expression after
another. -/
structure Generator (σ : Type) where
  source : σ
  range : LiteralRange

/-- Draws an expression and goes on with the source behind it. -/
def Generator.draw {σ : Type} [RandomSource σ] (budget : Nat) : StateM (Generator σ) Expr :=
  fun g =>
    let (tree, source) := Expr.draw g.range budget g.source
    (tree, { g with source })

theorem Generator.mapM_draw {σ : Type} [RandomSource σ] (budgets : List Nat) (s : σ)
    (range : LiteralRange) :
    budgets.mapM Generator.draw (⟨s, range⟩ : Generator σ) =
      ((budgets.mapM (Expr.draw range) s).1, ⟨(budgets.mapM (Expr.draw range) s).2, range⟩) := by
  induction budgets generalizing s with
  | nil => rfl
  | cons budget budgets ih =>
    have hfirst : Generator.draw budget (⟨s, range⟩ : Generator σ) =
        ((Expr.draw range budget s).1, ⟨(Expr.draw range budget s).2, range⟩) := rfl
    rw [List.mapM_cons, draw_bind, hfirst, draw_bind, ih, Expr.mapM_draw_cons]
    rfl

/-- How many words an expression takes off a source, and that it depends on no others. Expressions
for several budgets from one generator are those of separate draws, one behind the other, and each
depends on its own words alone. -/
theorem Expr.draw_accounts {σ : Type} [RandomSource σ] (range : LiteralRange) (s : σ) :
    (∀ budget, ∃ answers more, Gives s answers (Expr.draw range budget s).2 ∧
      let e := (Expr.draw range budget s).1
      answers.length = e.nodeCount + e.binaryCount + e.literals.length + more ∧
        more ≤ e.binaryCount + (e.smallLiterals range budget).length ∧
        (∀ n, Expr.draw range budget (⟨s, n⟩ : Counted σ) =
          (e, ⟨(Expr.draw range budget s).2, n + answers.length⟩)) ∧
        ∀ (τ : Type) [RandomSource τ] (t t' : τ), Gives t answers t' →
          Expr.draw range budget t = (e, t')) ∧
    ∀ budgets : List Nat, ∃ (portions : List (Portion range)) (t : σ),
      portions.map Portion.budget = budgets ∧ Gives s (portions.flatMap Portion.answers) t ∧
        budgets.mapM (Expr.draw range) s = (portions.map Portion.tree, t) ∧
        budgets.mapM Generator.draw (⟨s, range⟩ : Generator σ) =
          (portions.map Portion.tree, ⟨t, range⟩) := by
  constructor
  · intro budget
    obtain ⟨answers, hgives, ⟨hleast, hmost⟩, hsame⟩ := reads_draw range budget σ s
    obtain ⟨more, hmore⟩ := Nat.exists_eq_add_of_le hleast
    refine ⟨answers, more, hgives, hmore, ?_, ?_, hsame⟩
    · rw [hmore] at hmost
      exact Nat.le_of_add_le_add_left hmost
    · intro n
      exact hsame (Counted σ) _ _ (hgives.counted n)
  · intro budgets
    obtain ⟨portions, hbudgets, htrees, hgives⟩ := exists_portions range budgets s
    refine ⟨portions, _, hbudgets, hgives, Prod.ext htrees rfl, ?_⟩
    rw [Generator.mapM_draw, htrees]

/-- Words for `-1000 * 0`, two of them for the operator and two for the second literal, and one
more. -/
def redrawScript : Script :=
  ⟨[0x8000000000000000, 0, 0, 613566756, 0xffffffff, 0, 9218762655527012301, 0xffffffffffffffff,
    5]⟩

theorem Expr.draw_accounts_two_more :
    let e : Expr := .binary .mul (.literal (-1000)) (.literal 0)
    ∃ answers, answers.length = e.nodeCount + e.binaryCount + e.literals.length + 2 ∧
      Gives redrawScript answers ⟨[5]⟩ ∧
      Expr.draw .full 1 (⟨redrawScript, 7⟩ : Counted Script) = (e, ⟨⟨[5]⟩, 7 + answers.length⟩) := by
  intro e
  have hdraw : Expr.draw .full 1 redrawScript = (e, ⟨[5]⟩) := by cbv
  have hdraws : (Expr.draw .full 1 (⟨redrawScript, 7⟩ : Counted Script)).2.draws = 15 := by cbv
  obtain ⟨answers, more, hgives, -, -, -, hsame⟩ := (draw_accounts .full redrawScript).1 1
  rw [hdraw] at hgives hsame
  have hcounted := hsame (Counted Script) _ _ (hgives.counted 7)
  have hlength : 7 + answers.length = 7 + 8 := by
    rw [hcounted] at hdraws
    exact hdraws
  exact ⟨answers, Nat.add_left_cancel hlength, hgives, hcounted⟩

end Arith64

import Arith64.Proofs.Searching

/-!
# How attempts add up

Options that differ in their policy and their attempts draw the same expressions
in the same order. A search with `m + n` attempts is therefore one with `m` and,
if that finds nothing, one with `n` where the first left the source. Without
another attempt, the two policies differ in the failure alone.
-/

namespace Arith64.CaseOptions

variable {σ : Type} [RandomSource σ]

/-- The same options with some attempts, each fault costing one. -/
def within (o : CaseOptions) (attempts : UInt32) : CaseOptions :=
  { o with faultPolicy := .regenerate, maxAttempts := attempts }

/-- The same options with a fault ending the search. -/
def failing (o : CaseOptions) (attempts : UInt32) : CaseOptions :=
  { o with faultPolicy := .fail, maxAttempts := attempts }

/-- A search with `m` attempts and, where it finds nothing, another one with `n` behind it. The
case of the second one counts the attempts of both. -/
def drawTwice (o : CaseOptions) (m n : UInt32) : StateM σ (Except Failure TestCase) := do
  match ← (o.within m).drawCase with
  | .error (.generation _) =>
    match ← (o.within n).drawCase with
    | .ok c => return .ok { c with attempts := c.attempts + m.toNat }
    | .error (.generation _) => return .error (.exhausted (m.toNat + n.toNat))
    | other => return other
  | other => return other

/-! ## The same expressions -/

section Streams

variable (o : CaseOptions) (n : UInt32) (m k : Nat) (s : σ)

theorem sourceAfter_within : (o.within n).sourceAfter k s = o.sourceAfter k s := by
  induction k generalizing s with
  | zero => rfl
  | succ k ih => exact ih (Expr.draw o.range o.maxDepth.toNat s).2

theorem treeAfter_within : (o.within n).treeAfter k s = o.treeAfter k s := by
  rw [treeAfter, sourceAfter_within]
  rfl

theorem sourceAfter_add : o.sourceAfter (m + k) s = o.sourceAfter k (o.sourceAfter m s) := by
  induction m generalizing s with
  | zero => rw [Nat.zero_add, sourceAfter]
  | succ m ih => rw [Nat.succ_add, sourceAfter, ih, sourceAfter]

theorem treeAfter_add : o.treeAfter (m + k) s = o.treeAfter k (o.sourceAfter m s) := by
  rw [treeAfter, treeAfter, sourceAfter_add]

end Streams

/-! ## Searches with some attempts -/

section Within

variable {o : CaseOptions} (hlimit : o.maxDepth.toNat ≤ 32) {n : UInt32} (hn : n ≠ 0) {s : σ}
include hlimit hn

theorem drawCase_within_of_first {k : Nat} {v : Int64} (hk : k < n.toNat)
    (hvalue : (o.treeAfter k s).value = .ok v)
    (hfaults : ∀ j < k, ∀ w, (o.treeAfter j s).value ≠ .ok w) :
    (o.within n).drawCase s =
      (.ok ((o.treeAfter k s).testCase v (k + 1)), o.sourceAfter (k + 1) s) := by
  have hdepth : (o.within n).maxDepth.toNat ≤ 32 := hlimit
  simp only [← treeAfter_within o n] at hvalue hfaults
  rw [drawCase_of_first hn hdepth rfl hk hvalue hfaults, treeAfter_within, sourceAfter_within]

theorem drawCase_within_of_none
    (hnone : ∀ k < n.toNat, ∀ v, (o.treeAfter k s).value ≠ .ok v) :
    (o.within n).drawCase s = (.error (.exhausted n.toNat), o.sourceAfter n.toNat s) := by
  have hdepth : (o.within n).maxDepth.toNat ≤ 32 := hlimit
  simp only [← treeAfter_within o n] at hnone
  rw [drawCase_of_none hn hdepth rfl hnone, sourceAfter_within]
  rfl

end Within

theorem exists_first_or_none (o : CaseOptions) (n : Nat) (s : σ) :
    (∃ k < n, ∃ v, (o.treeAfter k s).value = .ok v ∧
      ∀ j < k, ∀ w, (o.treeAfter j s).value ≠ .ok w) ∨
    ∀ k < n, ∀ v, (o.treeAfter k s).value ≠ .ok v := by
  induction n with
  | zero => exact .inr fun k hk => absurd hk (Nat.not_lt_zero k)
  | succ n ih =>
    rcases ih with ⟨k, hk, hfirst⟩ | hnone
    · exact .inl ⟨k, Nat.lt_succ_of_lt hk, hfirst⟩
    · by_cases hlast : ∃ v, (o.treeAfter n s).value = .ok v
      · obtain ⟨v, hv⟩ := hlast
        exact .inl ⟨n, Nat.lt_succ_self n, v, hv, hnone⟩
      · exact .inr (Nat.forall_lt_succ_right.mpr ⟨hnone, not_exists.mp hlast⟩)

theorem no_value_add {o : CaseOptions} {m k : Nat} {s : σ}
    (hfirst : ∀ j < m, ∀ w, (o.treeAfter j s).value ≠ .ok w)
    (hsecond : ∀ j < k, ∀ w, (o.treeAfter j (o.sourceAfter m s)).value ≠ .ok w) :
    ∀ j < m + k, ∀ w, (o.treeAfter j s).value ≠ .ok w := by
  intro j hj
  by_cases hjm : j < m
  · exact hfirst j hjm
  · obtain ⟨i, rfl⟩ := Nat.exists_eq_add_of_le (Nat.not_lt.mp hjm)
    rw [treeAfter_add]
    exact hsecond i (by omega)

/-- How two searches one behind the other end, and a single one with the attempts of both. -/
inductive Together (o : CaseOptions) (m n : UInt32) (s : σ) : Prop
  | first {c : TestCase} {t : σ} (hfirst : (o.within m).drawCase s = (.ok c, t))
    (hboth : (o.within (m + n)).drawCase s = (.ok c, t))
  | second {c : TestCase} {t u : σ}
    (hfirst : (o.within m).drawCase s = (.error (.exhausted m.toNat), t))
    (hsecond : (o.within n).drawCase t = (.ok c, u))
    (hboth : (o.within (m + n)).drawCase s =
      (.ok { c with attempts := c.attempts + m.toNat }, u))
  | neither {t u : σ} (hfirst : (o.within m).drawCase s = (.error (.exhausted m.toNat), t))
    (hsecond : (o.within n).drawCase t = (.error (.exhausted n.toNat), u))
    (hboth : (o.within (m + n)).drawCase s = (.error (.exhausted (m.toNat + n.toNat)), u))

theorem together {o : CaseOptions} {m n : UInt32} (hlimit : o.maxDepth.toNat ≤ 32) (hm : m ≠ 0)
    (hn : n ≠ 0) (hsum : m.toNat + n.toNat < 2 ^ 32) (s : σ) : Together o m n s := by
  have hnat : (m + n).toNat = m.toNat + n.toNat := by
    rw [UInt32.toNat_add, Nat.mod_eq_of_lt hsum]
  have hmn : m + n ≠ 0 := by
    intro hzero
    rw [hzero] at hnat
    exact hm (UInt32.toNat_inj.mp (Nat.eq_zero_of_add_eq_zero hnat.symm).1)
  rcases o.exists_first_or_none m.toNat s with ⟨k, hk, v, hvalue, hfaults⟩ | hnone
  · exact .first (drawCase_within_of_first hlimit hm hk hvalue hfaults)
      (drawCase_within_of_first hlimit hmn (by omega) hvalue hfaults)
  · have hfirst := drawCase_within_of_none hlimit hm hnone
    -- The second search draws the expressions from number `m` on.
    rcases o.exists_first_or_none n.toNat (o.sourceAfter m.toNat s) with
      ⟨k, hk, v, hvalue, hfaults⟩ | hnone'
    · refine .second hfirst (drawCase_within_of_first hlimit hn hk hvalue hfaults) ?_
      have hall := no_value_add hnone hfaults
      rw [← treeAfter_add] at hvalue
      rw [drawCase_within_of_first hlimit hmn (by omega) hvalue hall, treeAfter_add,
        Nat.add_assoc, sourceAfter_add, Nat.add_comm m.toNat]
      rfl
    · refine .neither hfirst (drawCase_within_of_none hlimit hn hnone') ?_
      have hall := no_value_add hnone hnone'
      rw [← hnat] at hall
      rw [drawCase_within_of_none hlimit hmn hall, hnat, sourceAfter_add]

theorem failing_or_fault {o : CaseOptions} (hlimit : o.maxDepth.toNat ≤ 32) {k : UInt32}
    (hk : k ≠ 0) (s : σ) :
    (∃ c t, (o.within 1).drawCase s = (.ok c, t) ∧ (o.failing k).drawCase s = (.ok c, t)) ∨
      ∃ fault t, (Expr.draw o.range o.maxDepth.toNat s).1.evaluate = .error (.fault fault) ∧
        (o.within 1).drawCase s = (.error (.exhausted 1), t) ∧
        (o.failing k).drawCase s = (.error (.fault fault), t) := by
  have hdepth : (o.failing k).maxDepth.toNat ≤ 32 := hlimit
  have hfail := drawCase_of_fail hk hdepth rfl s
  have htree : (o.failing k).treeAfter 0 s = o.treeAfter 0 s := rfl
  have hone : (1 : UInt32) ≠ 0 := by decide
  rw [htree] at hfail
  cases hvalue : (o.treeAfter 0 s).value with
  | ok v =>
    rw [hvalue] at hfail
    have hwithin := drawCase_within_of_first hlimit hone Nat.one_pos hvalue
      fun j hj => absurd hj (Nat.not_lt_zero j)
    exact .inl ⟨_, _, hwithin, hfail⟩
  | error fault =>
    rw [hvalue] at hfail
    have hevaluate : (o.treeAfter 0 s).evaluate = .error (.fault fault) :=
      (evaluate_treeAfter_eq_error_iff hlimit 0 s).mpr ⟨fault, rfl, hvalue⟩
    have hnone : ∀ j < (1 : UInt32).toNat, ∀ w, (o.treeAfter j s).value ≠ .ok w := by
      intro j hj w
      obtain rfl : j = 0 := Nat.lt_one_iff.mp hj
      rw [hvalue]
      rintro ⟨⟩
    exact .inr ⟨fault, _, hevaluate, drawCase_within_of_none hlimit hone hnone, hfail⟩

/-- A search with `m + n` attempts is one with `m` and, if that finds nothing, one with `n` behind
it. A fault that ends the search makes it one with a single attempt, up to the failure. -/
theorem drawCase_add (o : CaseOptions) (hlimit : o.maxDepth.toNat ≤ 32) (s : σ) :
    (∀ m n : UInt32, m ≠ 0 → n ≠ 0 → m.toNat + n.toNat < 2 ^ 32 →
      (o.within (m + n)).drawCase s = o.drawTwice m n s ∧
      ((∃ reason, ((o.within (m + n)).drawCase s).1 = .error (.generation reason)) ↔
        (∃ reason, ((o.within m).drawCase s).1 = .error (.generation reason)) ∧
          ∃ reason, ((o.within n).drawCase ((o.within m).drawCase s).2).1 =
            .error (.generation reason))) ∧
    ∀ k : UInt32, k ≠ 0 →
      (∃ c t, (o.within 1).drawCase s = (.ok c, t) ∧ (o.failing k).drawCase s = (.ok c, t)) ∨
        ∃ reason fault t, (o.within 1).drawCase s = (.error (.generation reason), t) ∧
          (Expr.draw o.range o.maxDepth.toNat s).1.evaluate = .error (.fault fault) ∧
          (o.failing k).drawCase s = (.error (.fault fault), t) := by
  constructor
  · intro m n hm hn hsum
    unfold drawTwice
    rw [draw_bind]
    rcases together hlimit hm hn hsum s with
      ⟨hfirst, hboth⟩ | ⟨hfirst, hsecond, hboth⟩ | ⟨hfirst, hsecond, hboth⟩
    · rw [hfirst, hboth]
      exact ⟨rfl, by simp⟩
    · rw [hfirst, hboth]
      dsimp only [Failure.exhausted]
      rw [draw_bind, hsecond]
      exact ⟨rfl, by simp⟩
    · rw [hfirst, hboth]
      dsimp only [Failure.exhausted]
      rw [draw_bind, hsecond]
      exact ⟨rfl, by simp [Failure.exhausted]⟩
  · intro k hk
    rcases failing_or_fault hlimit hk s with hcase | ⟨fault, t, hevaluate, hwithin, hfail⟩
    · exact .inl hcase
    · exact .inr ⟨_, fault, t, hwithin, hevaluate, hfail⟩

/-- Words for `-1000 / 0` in front of those for `-1000 / 0` and `-1000`. -/
def twoFaultsScript : Script :=
  ⟨[0x8000000000000000, 0, 0, 1840700270, 0, 9218762655527012302] ++ divisionScript.words⟩

theorem drawCase_add_third_expression :
    ((divisionOptions .fail).within (1 + 2)).drawCase twoFaultsScript =
        (.ok ((Expr.literal (-1000)).testCase (-1000) 3), ⟨[5]⟩) ∧
      ((divisionOptions .fail).failing 9).drawCase twoFaultsScript =
        (.error (.fault .divisionByZero), divisionScript) := by
  obtain ⟨hadd, hfail⟩ := drawCase_add (divisionOptions .fail) (by decide) twoFaultsScript
  obtain ⟨htwice, -⟩ := hadd 1 2 (by decide) (by decide) (by decide)
  have hone : ((divisionOptions .fail).within 1).drawCase twoFaultsScript =
      (.error (.exhausted 1), divisionScript) := by cbv
  have htwo : ((divisionOptions .fail).within 2).drawCase divisionScript =
      (.ok ((Expr.literal (-1000)).testCase (-1000) 2), ⟨[5]⟩) := by cbv
  constructor
  · rw [htwice, drawTwice, draw_bind, hone]
    dsimp only [Failure.exhausted]
    rw [draw_bind, htwo]
    rfl
  · rcases hfail 9 (by decide) with ⟨c, t, hwithin, -⟩ | ⟨reason, fault, t, hwithin, hfault, h⟩
    · rw [hone] at hwithin
      cases hwithin
    · rw [hone] at hwithin
      cases hwithin
      cases hfault
      exact h

end Arith64.CaseOptions

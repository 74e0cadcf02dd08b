import Arith64.Case.Search
import Arith64.Proofs.Drawing
import Arith64.Proofs.Machine
import Arith64.Proofs.RoundTrip

/-!
# What a search finds

An expression that was drawn is never too deep to be read back and never has
too many literals for the machine, so its case is its value with both texts, or
its fault. A search therefore ends in one of three ways, and which one it is
depends on the values of the expressions alone.
-/

namespace Arith64

/-! ## The case of an expression -/

namespace Expr

/-- The test case of an expression with this value. -/
def testCase (e : Expr) (value : Int64) (attempts : Nat) : TestCase :=
  ⟨value, e.target, e.reference, attempts, e⟩

theorem computeText_reference {e : Expr} (hdepth : e.depth < nestingLimit)
    (hfit : e.literalCount ≤ 2 ^ 32) : computeText e.reference = e.value.mapError .fault := by
  rw [computeText, parse_reference hdepth]
  change e.compute = _
  rw [compute, evaluate_eq_value hfit]
  cases e.value with
  | error fault => rfl
  | ok v => rfl

theorem testCase_ofTree {e : Expr} (hdepth : e.depth < nestingLimit)
    (hfit : e.literalCount ≤ 2 ^ 32) :
    TestCase.ofTree e =
      match e.value with
      | .ok v => .ok (e.testCase v 1)
      | .error fault => .error (.fault fault) := by
  rw [TestCase.ofTree, computeText_reference hdepth hfit]
  cases e.value with
  | error fault => rfl
  | ok v => rfl

end Expr

namespace CaseOptions

variable {σ : Type} [RandomSource σ] (o : CaseOptions)

/-! ## Expressions one after another -/

/-- The source behind some number of expressions. -/
def sourceAfter : Nat → σ → σ
  | 0, s => s
  | k + 1, s => sourceAfter k (Expr.draw o.range o.maxDepth.toNat s).2

/-- The expression that comes behind some number of others. -/
def treeAfter (k : Nat) (s : σ) : Expr :=
  (Expr.draw o.range o.maxDepth.toNat (o.sourceAfter k s)).1

theorem fits_treeAfter (k : Nat) (s : σ) :
    (o.treeAfter k s).Fits o.range o.maxDepth.toNat :=
  Expr.yields_draw o.range o.maxDepth.toNat (o.sourceAfter k s)

variable {o}

section Limits

variable (hlimit : o.maxDepth.toNat ≤ 32) (k : Nat) (s : σ)
include hlimit

theorem depth_treeAfter : (o.treeAfter k s).depth < nestingLimit := by
  have hdepth := (o.fits_treeAfter k s).depth_le
  rw [nestingLimit]
  omega

theorem literalCount_treeAfter : (o.treeAfter k s).literalCount ≤ 2 ^ 32 := by
  have hdepth := (o.fits_treeAfter k s).depth_le
  calc (o.treeAfter k s).literalCount ≤ 2 ^ (o.treeAfter k s).depth :=
        Expr.literalCount_le_two_pow_depth _
    _ ≤ 2 ^ 32 := Nat.pow_le_pow_right (by omega) (by omega)

theorem evaluate_treeAfter : (o.treeAfter k s).evaluate = (o.treeAfter k s).value.mapError .fault :=
  evaluate_eq_value (literalCount_treeAfter hlimit k s)

theorem evaluate_treeAfter_eq_ok_iff {v : Int64} :
    (o.treeAfter k s).evaluate = .ok v ↔ (o.treeAfter k s).value = .ok v := by
  rw [evaluate_treeAfter hlimit]
  cases (o.treeAfter k s).value <;> simp [Except.mapError]

theorem evaluate_treeAfter_eq_error_iff {halt : Halt} :
    (o.treeAfter k s).evaluate = .error halt ↔
      ∃ fault, halt = .fault fault ∧ (o.treeAfter k s).value = .error fault := by
  rw [evaluate_treeAfter hlimit]
  cases (o.treeAfter k s).value <;> simp [Except.mapError, eq_comm]

end Limits

/-! ## One attempt -/

theorem searchFrom_succ (hlimit : o.maxDepth.toNat ≤ 32) (left attempt : Nat) (s : σ) :
    o.searchFrom (left + 1) attempt s =
      match (o.treeAfter 0 s).value with
      | .ok v => (.ok ((o.treeAfter 0 s).testCase v attempt), o.sourceAfter 1 s)
      | .error fault =>
        match o.faultPolicy with
        | .fail => (.error (.fault fault), o.sourceAfter 1 s)
        | .regenerate => o.searchFrom left (attempt + 1) (o.sourceAfter 1 s) := by
  have htree : (Expr.draw o.range o.maxDepth.toNat s).1 = o.treeAfter 0 s := rfl
  have hsource : (Expr.draw o.range o.maxDepth.toNat s).2 = o.sourceAfter 1 s := rfl
  rw [searchFrom, draw_bind, htree, hsource, Expr.testCase_ofTree (depth_treeAfter hlimit 0 s)
    (literalCount_treeAfter hlimit 0 s)]
  cases (o.treeAfter 0 s).value with
  | ok v => rfl
  | error fault =>
    cases hpolicy : o.faultPolicy with
    | fail => simp [Failure.isEvaluation, draw_pure]
    | regenerate => simp [Failure.isEvaluation]

/-! ## A whole search -/

/-- How a search over at most `left` expressions can end, and where it leaves the source. -/
inductive SearchEnds (o : CaseOptions) (left attempt : Nat) (s : σ) :
    Except Failure TestCase × σ → Prop
  | found {k : Nat} {v : Int64} (hk : k < left) (hvalue : (o.treeAfter k s).value = .ok v)
    (hfaults : ∀ j < k, ∃ fault, (o.treeAfter j s).value = .error fault)
    (hpolicy : k = 0 ∨ o.faultPolicy = .regenerate) :
    SearchEnds o left attempt s
      (.ok ((o.treeAfter k s).testCase v (attempt + k)), o.sourceAfter (k + 1) s)
  | faulted {fault : Fault} (hleft : 0 < left) (hvalue : (o.treeAfter 0 s).value = .error fault)
    (hpolicy : o.faultPolicy = .fail) :
    SearchEnds o left attempt s (.error (.fault fault), o.sourceAfter 1 s)
  | exhausted (hfaults : ∀ j < left, ∃ fault, (o.treeAfter j s).value = .error fault)
    (hpolicy : left = 0 ∨ o.faultPolicy = .regenerate) :
    SearchEnds o left attempt s
      (.error (.exhausted o.maxAttempts.toNat), o.sourceAfter left s)

theorem SearchEnds.behind {left attempt : Nat} {s : σ} {fault : Fault}
    {result : Except Failure TestCase × σ} (hpolicy : o.faultPolicy = .regenerate)
    (hvalue : (o.treeAfter 0 s).value = .error fault)
    (h : SearchEnds o left (attempt + 1) (o.sourceAfter 1 s) result) :
    SearchEnds o (left + 1) attempt s result := by
  cases h with
  | @found k v hk hv hfaults _ =>
    have hall : ∀ j < k + 1, ∃ fault, (o.treeAfter j s).value = .error fault :=
      Nat.forall_lt_succ_left.mpr ⟨⟨fault, hvalue⟩, hfaults⟩
    rw [Nat.add_assoc, Nat.add_comm 1 k]
    exact .found (Nat.succ_lt_succ hk) hv hall (.inr hpolicy)
  | faulted _ _ hfail =>
    rw [hpolicy] at hfail
    cases hfail
  | exhausted hfaults _ =>
    exact .exhausted (Nat.forall_lt_succ_left.mpr ⟨⟨fault, hvalue⟩, hfaults⟩) (.inr hpolicy)

theorem searchFrom_ends (hlimit : o.maxDepth.toNat ≤ 32) (left attempt : Nat) (s : σ) :
    SearchEnds o left attempt s (o.searchFrom left attempt s) := by
  induction left generalizing attempt s with
  | zero => exact .exhausted (fun j hj => absurd hj (Nat.not_lt_zero j)) (.inl rfl)
  | succ left ih =>
    rw [searchFrom_succ hlimit]
    split
    · rename_i v hvalue
      exact .found (Nat.succ_pos left) hvalue (fun j hj => absurd hj (Nat.not_lt_zero j)) (.inl rfl)
    · rename_i fault hvalue
      split
      · rename_i hpolicy
        exact .faulted (Nat.succ_pos left) hvalue hpolicy
      · rename_i hpolicy
        exact (ih (attempt + 1) (o.sourceAfter 1 s)).behind hpolicy hvalue

/-! ## Drawing a case -/

theorem validate_eq_ok_iff : o.validate = .ok () ↔ o.maxAttempts ≠ 0 ∧ o.maxDepth.toNat ≤ 32 := by
  have hlimit : depthLimit < o.maxDepth ↔ 32 < o.maxDepth.toNat := UInt32.lt_iff_toNat_lt
  unfold validate
  split
  · rename_i hattempts
    simp [hattempts]
  · rename_i hattempts
    split
    · rename_i hdepth
      have hdeep := hlimit.mp hdepth
      simp only [reduceCtorEq, false_iff, not_and]
      omega
    · rename_i hdepth
      rw [hlimit] at hdepth
      exact iff_of_true rfl ⟨hattempts, by omega⟩

theorem drawCase_of_invalid (h : o.maxAttempts = 0 ∨ 32 < o.maxDepth.toNat) (s : σ) :
    ∃ invalid, o.validate = .error invalid ∧
      o.drawCase s = (.error (.config invalid.message), s) := by
  cases hvalid : o.validate with
  | ok _ =>
    obtain ⟨hattempts, hdepth⟩ := validate_eq_ok_iff.mp hvalid
    rcases h with h | h
    · exact absurd h hattempts
    · omega
  | error invalid =>
    refine ⟨invalid, rfl, ?_⟩
    rw [drawCase, hvalid]
    rfl

theorem drawCase_ends (hattempts : o.maxAttempts ≠ 0) (hlimit : o.maxDepth.toNat ≤ 32) (s : σ) :
    SearchEnds o o.maxAttempts.toNat 1 s (o.drawCase s) := by
  rw [drawCase, validate_eq_ok_iff.mpr ⟨hattempts, hlimit⟩]
  exact searchFrom_ends hlimit _ _ _

theorem drawCase_of_first (hattempts : o.maxAttempts ≠ 0) (hlimit : o.maxDepth.toNat ≤ 32)
    (hpolicy : o.faultPolicy = .regenerate) {s : σ} {k : Nat} (hk : k < o.maxAttempts.toNat)
    {v : Int64} (hvalue : (o.treeAfter k s).value = .ok v)
    (hfaults : ∀ j < k, ∀ w, (o.treeAfter j s).value ≠ .ok w) :
    o.drawCase s = (.ok ((o.treeAfter k s).testCase v (k + 1)), o.sourceAfter (k + 1) s) := by
  have hends := drawCase_ends hattempts hlimit s
  generalize o.drawCase s = result at hends
  cases hends with
  | @found k' w hk' hvalue' hfaults' _ =>
    -- Before either of the two there are only faults, so neither comes first.
    have hsame : k' = k := by
      rcases Nat.lt_trichotomy k' k with hlt | heq | hlt
      · exact absurd hvalue' (hfaults k' hlt w)
      · exact heq
      · obtain ⟨fault, hfault⟩ := hfaults' k hlt
        rw [hvalue] at hfault
        cases hfault
    subst hsame
    rw [hvalue] at hvalue'
    cases hvalue'
    rw [Nat.add_comm]
  | faulted _ _ hfail =>
    rw [hpolicy] at hfail
    cases hfail
  | exhausted hfaults' _ =>
    obtain ⟨fault, hfault⟩ := hfaults' k hk
    rw [hvalue] at hfault
    cases hfault

theorem drawCase_of_none (hattempts : o.maxAttempts ≠ 0) (hlimit : o.maxDepth.toNat ≤ 32)
    (hpolicy : o.faultPolicy = .regenerate) {s : σ}
    (hnone : ∀ k < o.maxAttempts.toNat, ∀ v, (o.treeAfter k s).value ≠ .ok v) :
    o.drawCase s =
      (.error (.exhausted o.maxAttempts.toNat), o.sourceAfter o.maxAttempts.toNat s) := by
  have hends := drawCase_ends hattempts hlimit s
  generalize o.drawCase s = result at hends
  cases hends with
  | @found k v hk hvalue _ _ => exact absurd hvalue (hnone k hk v)
  | faulted _ _ hfail =>
    rw [hpolicy] at hfail
    cases hfail
  | exhausted _ _ => rfl

theorem drawCase_of_fail (hattempts : o.maxAttempts ≠ 0) (hlimit : o.maxDepth.toNat ≤ 32)
    (hpolicy : o.faultPolicy = .fail) (s : σ) :
    o.drawCase s =
      match (o.treeAfter 0 s).value with
      | .ok v => (.ok ((o.treeAfter 0 s).testCase v 1), o.sourceAfter 1 s)
      | .error fault => (.error (.fault fault), o.sourceAfter 1 s) := by
  have hpos : o.maxAttempts.toNat ≠ 0 := fun h => hattempts (UInt32.toNat_inj.mp h)
  obtain ⟨left, hleft⟩ := Nat.exists_eq_add_one_of_ne_zero hpos
  rw [drawCase, validate_eq_ok_iff.mpr ⟨hattempts, hlimit⟩]
  simp only [hleft, searchFrom_succ hlimit, hpolicy]

theorem drawCase_found {s : σ} {c : TestCase} (h : (o.drawCase s).1 = .ok c) :
    o.maxDepth.toNat ≤ 32 ∧ ∃ k < o.maxAttempts.toNat, ∃ v,
      (o.treeAfter k s).value = .ok v ∧ c = (o.treeAfter k s).testCase v (k + 1) := by
  by_cases hvalid : o.maxAttempts = 0 ∨ 32 < o.maxDepth.toNat
  · obtain ⟨invalid, -, hdraw⟩ := drawCase_of_invalid hvalid s
    rw [hdraw] at h
    cases h
  · obtain ⟨hattempts, hlimit⟩ := not_or.mp hvalid
    have hends := drawCase_ends hattempts (Nat.not_lt.mp hlimit) s
    generalize o.drawCase s = result at h hends
    cases hends with
    | @found k v hk hvalue _ _ =>
      cases h
      exact ⟨Nat.not_lt.mp hlimit, k, hk, v, hvalue, by rw [Nat.add_comm]⟩
    | faulted _ _ _ => cases h
    | exhausted _ _ => cases h

theorem drawCase_failed {s : σ} {failure : Failure} (h : (o.drawCase s).1 = .error failure) :
    (∃ fault, failure = .fault fault) ∨ (∃ reason, failure = .generation reason) ∨
      ∃ reason, failure = .config reason := by
  by_cases hvalid : o.maxAttempts = 0 ∨ 32 < o.maxDepth.toNat
  · obtain ⟨invalid, -, hdraw⟩ := drawCase_of_invalid hvalid s
    rw [hdraw] at h
    cases h
    exact .inr (.inr ⟨_, rfl⟩)
  · obtain ⟨hattempts, hlimit⟩ := not_or.mp hvalid
    have hends := drawCase_ends hattempts (Nat.not_lt.mp hlimit) s
    generalize o.drawCase s = result at h hends
    cases hends with
    | found _ _ _ _ => cases h
    | faulted _ _ _ =>
      cases h
      exact .inl ⟨_, rfl⟩
    | exhausted _ _ =>
      cases h
      exact .inr (.inl ⟨_, rfl⟩)

/-- Every part of a case that was drawn follows from its expression, which is one that the options
allow, and the case counts the expressions up to it. -/
theorem drawCase_sound (o : CaseOptions) (s : σ) {c : TestCase} (h : (o.drawCase s).1 = .ok c) :
    c.target = c.tree.target ∧ c.reference = c.tree.reference ∧
      Expr.parse c.reference = .ok c.tree ∧ c.tree.evaluate = .ok c.expected ∧
      computeText c.reference = .ok c.expected ∧ c.tree.Fits o.range o.maxDepth.toNat ∧
      (∀ v ∈ c.tree.literals, o.range.contains v = true) ∧
      1 ≤ c.attempts ∧ c.attempts ≤ o.maxAttempts.toNat := by
  obtain ⟨hlimit, k, hk, v, hvalue, rfl⟩ := drawCase_found h
  have hdepth := depth_treeAfter hlimit k s
  have hfits := o.fits_treeAfter k s
  have hrange (v : Int64) (hv : v ∈ (o.treeAfter k s).literals) : o.range.contains v = true :=
    LiteralRange.contains_iff_spans.mpr (hfits.spans_literals v hv)
  refine ⟨rfl, rfl, Expr.parse_reference hdepth, ?_, ?_, hfits, hrange, Nat.succ_pos k, hk⟩
  · exact (evaluate_treeAfter_eq_ok_iff hlimit k s).mpr hvalue
  · change computeText (o.treeAfter k s).reference = _
    rw [Expr.computeText_reference hdepth (literalCount_treeAfter hlimit k s), hvalue]
    rfl

/-- Words for `-1000 / 0`, for `-1000`, and one more. -/
def divisionScript : Script :=
  ⟨[0x8000000000000000, 0, 0, 1840700270, 0, 9218762655527012302, 0, 0, 5]⟩

def divisionOptions (policy : FaultPolicy) : CaseOptions :=
  { maxDepth := 1, range := .small, faultPolicy := policy, maxAttempts := 2 }

theorem drawCase_second_attempt :
    let c := (Expr.literal (-1000)).testCase (-1000) 2
    ((divisionOptions .regenerate).drawCase divisionScript).1 = .ok c ∧
      Expr.parse c.reference = .ok c.tree ∧ computeText c.reference = .ok c.expected ∧
      c.tree.Fits .small 1 := by
  intro c
  have h : ((divisionOptions .regenerate).drawCase divisionScript).1 = .ok c := by cbv
  obtain ⟨-, -, hparse, -, htext, hfits, -⟩ := drawCase_sound _ divisionScript h
  exact ⟨h, hparse, htext, hfits⟩

/-- What a search comes to and where it leaves the source, by the values of the expressions that
the source gives one after another. -/
theorem drawCase_exact (o : CaseOptions) (s : σ) :
    (o.maxAttempts = 0 ∨ 32 < o.maxDepth.toNat →
      ∃ invalid, o.validate = .error invalid ∧
        o.drawCase s = (.error (.config invalid.message), s)) ∧
    (o.maxAttempts ≠ 0 → o.maxDepth.toNat ≤ 32 →
      (∀ k halt, (o.treeAfter k s).evaluate = .error halt → ∃ fault, halt = .fault fault) ∧
      (o.faultPolicy = .regenerate →
        (∀ k < o.maxAttempts.toNat, ∀ v, (o.treeAfter k s).evaluate = .ok v →
          (∀ j < k, ∀ w, (o.treeAfter j s).evaluate ≠ .ok w) →
          o.drawCase s =
            (.ok ((o.treeAfter k s).testCase v (k + 1)), o.sourceAfter (k + 1) s)) ∧
        ((∀ k < o.maxAttempts.toNat, ∀ v, (o.treeAfter k s).evaluate ≠ .ok v) →
          o.drawCase s =
            (.error (.exhausted o.maxAttempts.toNat), o.sourceAfter o.maxAttempts.toNat s))) ∧
      (o.faultPolicy = .fail →
        (∀ v, (o.treeAfter 0 s).evaluate = .ok v →
          o.drawCase s = (.ok ((o.treeAfter 0 s).testCase v 1), o.sourceAfter 1 s)) ∧
        ∀ fault, (o.treeAfter 0 s).evaluate = .error (.fault fault) →
          o.drawCase s = (.error (.fault fault), o.sourceAfter 1 s))) ∧
    ∀ failure, (o.drawCase s).1 = .error failure →
      (∃ fault, failure = .fault fault) ∨ (∃ reason, failure = .generation reason) ∨
        ∃ reason, failure = .config reason := by
  refine ⟨fun h => drawCase_of_invalid h s, ?_, fun failure => drawCase_failed⟩
  intro hattempts hlimit
  simp only [ne_eq, evaluate_treeAfter_eq_ok_iff hlimit, evaluate_treeAfter_eq_error_iff hlimit]
  refine ⟨?_, ?_, ?_⟩
  · rintro k _ ⟨fault, rfl, -⟩
    exact ⟨fault, rfl⟩
  · intro hpolicy
    refine ⟨?_, drawCase_of_none hattempts hlimit hpolicy⟩
    intro k hk v hvalue hfaults
    exact drawCase_of_first hattempts hlimit hpolicy hk hvalue hfaults
  · intro hpolicy
    rw [drawCase_of_fail hattempts hlimit hpolicy]
    constructor
    · intro v hvalue
      rw [hvalue]
    · rintro _ ⟨fault, ⟨⟩, hvalue⟩
      rw [hvalue]

theorem drawCase_both_policies :
    (divisionOptions .regenerate).drawCase divisionScript =
        (.ok ((Expr.literal (-1000)).testCase (-1000) 2), ⟨[5]⟩) ∧
      (divisionOptions .fail).drawCase divisionScript =
        (.error (.fault .divisionByZero), ⟨[0, 0, 5]⟩) := by
  constructor
  · have hfault (w : Int64) :
        ((divisionOptions .regenerate).treeAfter 0 divisionScript).evaluate ≠ .ok w := by
      rintro ⟨⟩
    refine (((drawCase_exact _ divisionScript).2.1 (by decide) (by decide)).2.1 rfl).1 1 (by decide)
      (-1000) rfl ?_
    intro j hj
    obtain rfl : j = 0 := by omega
    exact hfault
  · exact (((drawCase_exact _ divisionScript).2.1 (by decide) (by decide)).2.2 rfl).2
      .divisionByZero rfl

end CaseOptions

end Arith64

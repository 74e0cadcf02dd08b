import Mathlib
import Arith64.Proofs.Progress

/-!
# Levels of the reader

At every point of a run, the cursor stands on a token and the nesting counts the
levels, each of which began behind the ones around it. A level that ends has
moved the cursor on, so every run comes to the answer of `Expr.parse`.
-/

namespace Arith64

namespace Reader

variable {s : TokenStream} {r : Reader} {level : Level} {outer levels : List Level}

/-! ## Single actions -/

section Actions

variable {p nesting : Nat} {next : Token → Routine Expr}

theorem step_peek (hp : p < s.toList.length) :
    step s.toList ⟨.running (.peek next), p, nesting, levels⟩ =
      some ⟨.running (next (s.drop p).front), p, nesting, levels⟩ := by
  simp only [step, TokenStream.getElem?_toList hp]
  rfl

theorem step_bump (hp : p < s.toList.length) :
    step s.toList ⟨.running (.bump next), p, nesting, levels⟩ =
      some ⟨.running (next (s.drop p).front), onward s.toList p, nesting, levels⟩ := by
  simp only [step, TokenStream.getElem?_toList hp]
  rfl

theorem step_enter (hnesting : nesting ≤ nestingLimit) :
    step s.toList ⟨.entering, p, nesting, levels⟩ = some ⟨.running .expr, p, nesting, levels⟩ :=
  if_neg (Nat.not_lt.mpr hnesting)

theorem step_too_deep (hp : p < s.toList.length) (hdeep : nestingLimit < nesting) :
    step s.toList ⟨.entering, p, nesting, levels⟩ =
      some ⟨.raising ⟨(s.drop p).front.start, .nestedTooDeeply⟩, p, nesting, levels.tail⟩ := by
  simp only [step, if_pos hdeep, TokenStream.getElem?_toList hp]
  rfl

end Actions

/-! ## Sound readers -/

/-- The first place where the innermost level can begin another one. -/
def floor : List Level → Nat
  | [] => 0
  | level :: _ => level.start + 1

/-- Levels that each begin behind the one around them and leave it to go on behind their start. -/
inductive Climbs (s : TokenStream) : List Level → Prop
  | nil : Climbs s []
  | cons {level : Level} {outer : List Level} (hstart : floor outer ≤ level.start)
    (hnext : ∀ e q, level.start < q → q < s.toList.length → (level.next e).Gains s (floor outer) q)
    (h : Climbs s outer) : Climbs s (level :: outer)

theorem Climbs.tail (h : Climbs s levels) : Climbs s levels.tail := by
  cases h with
  | nil => exact .nil
  | cons _ _ h => exact h

theorem Climbs.start_lt (h : Climbs s levels) : ∀ level ∈ levels, level.start < floor levels := by
  induction h with
  | nil => simp
  | cons hstart _ _ ih =>
    intro other hother
    rcases List.mem_cons.mp hother with rfl | hother
    · exact Nat.lt_succ_self _
    · exact Nat.lt_succ_of_lt (Nat.lt_of_lt_of_le (ih other hother) hstart)

theorem Climbs.pairwise (h : Climbs s levels) :
    levels.Pairwise fun inner outer => outer.start < inner.start := by
  induction h with
  | nil => exact .nil
  | cons hstart _ hclimbs ih =>
    exact .cons (fun other hother => Nat.lt_of_lt_of_le (hclimbs.start_lt other hother) hstart) ih

/-- What holds of a reader at every point of its run. -/
structure Sound (s : TokenStream) (r : Reader) : Prop where
  position_lt : r.position < s.toList.length
  climbs : Climbs s r.levels
  nesting : match r.phase with
    | .entering => r.nesting = r.levels.length ∧ r.nesting ≤ nestingLimit + 1 ∧
        floor r.levels = r.position + 1
    | .running routine => r.nesting = r.levels.length ∧ r.nesting ≤ nestingLimit ∧
        routine.Gains s (floor r.levels) r.position
    | .raising _ => r.nesting ≤ nestingLimit + 1

theorem sound_start : start.Sound s where
  position_lt := by simp [start, TokenStream.length_toList]
  climbs := .nil
  nesting := ⟨rfl, Nat.zero_le _, Routine.gains_text⟩

/-- This level is about to begin, inside of `outer`. -/
structure Begins (r : Reader) (level : Level) (outer : List Level) : Prop where
  phase : r.phase = .running (.inner level.next)
  position : r.position = level.start
  levels : r.levels = outer

/-- The expression of this level has been read, inside of `outer`, and is `e`. -/
structure Ends (r : Reader) (e : Expr) (level : Level) (outer : List Level) : Prop where
  phase : r.phase = .running (.done e)
  levels : r.levels = level :: outer

/-- From one point to the other, this level has come to `e`. -/
structure Completes (before after : Reader) (level : Level) (e : Expr) : Prop where
  phase : after.phase = .running (level.next e)
  levels : after.levels = before.levels
  nesting : after.nesting = before.nesting
  position_lt : before.position < after.position

/-- What an action does with the levels: some are left, or one begins in front of them. -/
def Shifts (r r' : Reader) : Prop :=
  r'.levels <:+ r.levels ∨ ∃ level, r.Begins level r.levels ∧ r'.levels = level :: r.levels

theorem Sound.step (h : r.Sound s) :
    ∃ r', r.step s.toList = some r' ∧ r'.Sound s ∧ r.Shifts r' := by
  obtain ⟨phase, p, nesting, levels⟩ := r
  obtain ⟨hp, hclimbs, hphase⟩ := h
  dsimp only at hp hclimbs hphase
  have hsame : levels <:+ levels := List.suffix_rfl
  cases phase with
  | entering =>
    obtain ⟨hnesting, hle, hfloor⟩ := hphase
    by_cases hdeep : nestingLimit < nesting
    · exact ⟨_, step_too_deep hp hdeep, ⟨hp, hclimbs.tail, hle⟩, .inl (List.tail_suffix _)⟩
    · have hle := Nat.le_of_not_lt hdeep
      have hgains : Routine.expr.Gains s (floor levels) p := hfloor ▸ Routine.gains_expr
      exact ⟨_, step_enter hle, ⟨hp, hclimbs, hnesting, hle, hgains⟩, .inl hsame⟩
  | raising err =>
    cases levels with
    | nil => exact ⟨_, rfl, ⟨hp, hclimbs, hphase⟩, .inl hsame⟩
    | cons level outer =>
      have hle := Nat.le_trans (Nat.sub_le nesting 1) hphase
      exact ⟨_, rfl, ⟨hp, hclimbs.tail, hle⟩, .inl (List.suffix_cons _ _)⟩
  | running routine =>
    obtain ⟨hnesting, hle, hgains⟩ := hphase
    cases routine with
    | peek next =>
      exact ⟨_, step_peek hp, ⟨hp, hclimbs, hnesting, hle, hgains⟩, .inl hsame⟩
    | bump next =>
      have hp' := TokenStream.onward_lt hp
      exact ⟨_, step_bump hp, ⟨hp', hclimbs, hnesting, hle, hgains⟩, .inl hsame⟩
    | inner next =>
      obtain ⟨hfloor, hnext⟩ := hgains
      have hnesting' := congrArg (· + 1) hnesting
      exact ⟨_, rfl, ⟨hp, .cons hfloor hnext hclimbs, hnesting', Nat.succ_le_succ hle, rfl⟩,
        .inr ⟨⟨p, next⟩, ⟨rfl, rfl, rfl⟩, rfl⟩⟩
    | fail err => exact ⟨_, rfl, ⟨hp, hclimbs, Nat.le_succ_of_le hle⟩, .inl hsame⟩
    | done e =>
      cases hclimbs with
      | nil => exact ⟨_, rfl, ⟨hp, .nil, hnesting, hle, hgains⟩, .inl hsame⟩
      | cons hstart hnext hclimbs =>
        have hnesting' := Nat.sub_eq_of_eq_add hnesting
        have hle' := Nat.le_trans (Nat.sub_le nesting 1) hle
        exact ⟨_, rfl, ⟨hp, hclimbs, hnesting', hle', hnext e p hgains.1 hp⟩,
          .inl (List.suffix_cons _ _)⟩

/-- The cursor stands on a token, the nesting counts the levels until an error is raised, and each
level starts behind those around it. -/
structure Orderly (s : TokenStream) (r : Reader) : Prop where
  position_lt : r.position < s.toList.length
  nesting_le : r.nesting ≤ 513
  nesting_eq : (∀ err, r.phase ≠ .raising err) → r.nesting = r.levels.length
  starts : r.levels.Pairwise fun inner outer => outer.start < inner.start

theorem Sound.orderly (h : r.Sound s) : r.Orderly s := by
  obtain ⟨phase, p, nesting, levels⟩ := r
  obtain ⟨hp, hclimbs, hphase⟩ := h
  cases phase with
  | entering => exact ⟨hp, hphase.2.1, fun _ => hphase.1, hclimbs.pairwise⟩
  | running routine =>
    exact ⟨hp, Nat.le_succ_of_le hphase.2.1, fun _ => hphase.1, hclimbs.pairwise⟩
  | raising err => exact ⟨hp, hphase, fun h => absurd rfl (h err), hclimbs.pairwise⟩

/-! ## Runs to the end -/

/-- From one reader, some number of actions lead to the other. -/
def LeadsTo (s : TokenStream) : Reader → Reader → Prop :=
  Relation.ReflTransGen fun r r' => r.step s.toList = some r'

/-- A run goes on from this reader until its routine has come to what a reading says: to an
expression on the same level, at `low` or behind it, or to an error outside of all levels. -/
def ComesTo (s : TokenStream) (r : Reader) (low : Nat) :
    Except SyntaxError (Expr × TokenStream) → Prop
  | .ok (e, rest) => ∃ q, low ≤ q ∧ q < s.toList.length ∧ rest = s.drop q ∧
      LeadsTo s r ⟨.running (.done e), q, r.nesting, r.levels⟩
  | .error err => ∃ q nesting, LeadsTo s r ⟨.raising err, q, nesting, []⟩

section ComesTo

variable {p q nesting : Nat} {low : Nat} {routine : Routine Expr}
  {x : Except SyntaxError (Expr × TokenStream)} {phase : Phase}

theorem ComesTo.of_leadsTo
    (hleads : LeadsTo s ⟨.running routine, p, nesting, levels⟩ ⟨phase, q, nesting, levels⟩)
    (h : ComesTo s ⟨phase, q, nesting, levels⟩ low x) :
    ComesTo s ⟨.running routine, p, nesting, levels⟩ low x := by
  cases x with
  | ok result =>
    obtain ⟨q', hlow, hlt, hrest, hends⟩ := h
    exact ⟨q', hlow, hlt, hrest, hleads.trans hends⟩
  | error err =>
    obtain ⟨q', nesting', hends⟩ := h
    exact ⟨q', nesting', hleads.trans hends⟩

theorem leadsTo_raised (err : SyntaxError) (p nesting : Nat) (levels : List Level) :
    ∃ outside, LeadsTo s ⟨.raising err, p, nesting, levels⟩ ⟨.raising err, p, outside, []⟩ := by
  induction levels generalizing nesting with
  | nil => exact ⟨nesting, .refl⟩
  | cons level outer ih =>
    obtain ⟨outside, hleads⟩ := ih (nesting - 1)
    exact ⟨outside, .head rfl hleads⟩

/-- The run of a routine comes to what the routine reads. An expression inside it begins behind
its own start, with fewer tokens left, whatever the nesting is. -/
theorem comesTo_eval (levels : List Level) (hp : p < s.toList.length)
    (hnesting : nesting ≤ nestingLimit) (hgains : routine.Gains s low p) :
    ComesTo s ⟨.running routine, p, nesting, levels⟩ low
      (routine.eval (nestingLimit - nesting) (s.drop p)) := by
  -- on the tokens behind `low`, and for as many of them on the routine
  induction hleft : s.toList.length - low using Nat.strong_induction_on
    generalizing low p nesting levels routine with
  | _ left ihleft =>
  induction routine generalizing p with
  | done e => exact ⟨p, hgains.1, hp, rfl, .refl⟩
  | fail err =>
    obtain ⟨outside, hleads⟩ := leadsTo_raised (s := s) err p nesting levels
    exact ⟨p, outside, .head rfl hleads⟩
  | peek next ih => exact .of_leadsTo (.single (step_peek hp)) (ih _ hp hgains)
  | bump next ih =>
    refine .of_leadsTo (.single (step_bump hp)) ?_
    rw [Routine.eval, TokenStream.rest_drop hp]
    exact ih _ (TokenStream.onward_lt hp) hgains
  | inner next ih =>
    obtain ⟨hlow, hnext⟩ := hgains
    rw [Routine.eval]
    rcases Nat.lt_or_eq_of_le hnesting with hshallow | rfl
    · have hexpr := ihleft _ (by omega) (⟨p, next⟩ :: levels) hp hshallow Routine.gains_expr rfl
      have hbudget : nestingLimit - (nesting + 1) + 1 = nestingLimit - nesting := by omega
      rw [Routine.eval_expr, hbudget] at hexpr
      cases hread : (s.drop p).readExpr (nestingLimit - nesting) with
      | error err =>
        rw [hread] at hexpr
        obtain ⟨q, outside, hleads⟩ := hexpr
        exact ⟨q, outside, .head rfl (.head (step_enter hshallow) hleads)⟩
      | ok result =>
        obtain ⟨e, rest⟩ := result
        rw [hread] at hexpr
        obtain ⟨q, hpq, hq, rfl, hleads⟩ := hexpr
        refine .of_leadsTo (.head rfl (.head (step_enter hshallow) (hleads.tail rfl))) ?_
        exact ih e hq (hnext e q hpq hq)
    · -- the expression is one level too deep
      rw [Nat.sub_self]
      obtain ⟨outside, hleads⟩ := leadsTo_raised (s := s)
        ⟨(s.drop p).front.start, .nestedTooDeeply⟩ p (nestingLimit + 1) levels
      exact ⟨p, outside, .head rfl (.head (step_too_deep hp (Nat.lt_succ_self _)) hleads)⟩

end ComesTo

end Reader

/-! ## Points of a run -/

namespace TokenStream

variable {s : TokenStream} {n : Nat} {r : Reader} {level : Level} {outer : List Level}

theorem readerAfter_succ (h : s.readerAfter n = some r) :
    s.readerAfter (n + 1) = r.step s.toList := by
  rw [readerAfter, h, Option.bind_some]

theorem sound_readerAfter (s : TokenStream) (n : Nat) :
    ∃ r, s.readerAfter n = some r ∧ r.Sound s := by
  induction n with
  | zero => exact ⟨_, rfl, Reader.sound_start⟩
  | succ n ih =>
    obtain ⟨r, hr, hsound⟩ := ih
    obtain ⟨r', hstep, hsound', -⟩ := hsound.step
    exact ⟨r', by rw [readerAfter_succ hr, hstep], hsound'⟩

theorem sound_of_readerAfter (h : s.readerAfter n = some r) : r.Sound s := by
  obtain ⟨r', hr', hsound⟩ := s.sound_readerAfter n
  rw [h, Option.some.injEq] at hr'
  rwa [hr']

theorem readerAfter_of_leadsTo (h : Reader.LeadsTo s .start r) : ∃ n, s.readerAfter n = some r := by
  induction h with
  | refl => exact ⟨0, rfl⟩
  | tail _ hstep ih =>
    obtain ⟨n, hn⟩ := ih
    exact ⟨n + 1, by rw [readerAfter_succ hn, hstep]⟩

theorem begins_of_suffix (h : s.readerAfter n = some r) (hlevel : level :: outer <:+ r.levels) :
    ∃ m < n, ∃ before, s.readerAfter m = some before ∧ before.Begins level outer := by
  induction n generalizing r with
  | zero =>
    cases h
    simp [Reader.start] at hlevel
  | succ n ih =>
    obtain ⟨r₀, hr₀, hsound⟩ := s.sound_readerAfter n
    obtain ⟨r', hstep, -, hshifts⟩ := hsound.step
    rw [readerAfter_succ hr₀, hstep, Option.some.injEq] at h
    rw [← h] at hlevel
    have hearlier (hsuffix : level :: outer <:+ r₀.levels) :
        ∃ m < n + 1, ∃ before, s.readerAfter m = some before ∧ before.Begins level outer := by
      obtain ⟨m, hm, hbefore⟩ := ih hr₀ hsuffix
      exact ⟨m, Nat.lt_succ_of_lt hm, hbefore⟩
    -- the level was there before the last action, or began with it
    rcases hshifts with hleft | ⟨new, hbegins, hnew⟩
    · exact hearlier (hlevel.trans hleft)
    · rw [hnew, List.suffix_cons_iff] at hlevel
      rcases hlevel with heq | hsuffix
      · obtain ⟨rfl, rfl⟩ := List.cons.inj heq
        exact ⟨n, Nat.lt_succ_self n, r₀, hr₀, hbegins⟩
      · exact hearlier hsuffix

theorem exists_answer {text : String} (hs : tokenize text = .ok s) :
    ∃ n r, s.readerAfter n = some r ∧ r.answer? = some (Expr.parse text) := by
  have hparse : Expr.parse text = (Routine.text.eval nestingLimit s).map Prod.fst := by
    rw [Routine.eval_text, Expr.parse, hs]
    rfl
  have hcomes := Reader.comesTo_eval [] (Reader.sound_start (s := s)).position_lt
    (Nat.zero_le nestingLimit) Routine.gains_text
  rw [hparse]
  change Reader.ComesTo s .start 0 (Routine.text.eval nestingLimit s) at hcomes
  cases heval : Routine.text.eval nestingLimit s with
  | ok result =>
    rw [heval] at hcomes
    obtain ⟨q, -, -, -, hleads⟩ := hcomes
    obtain ⟨n, hn⟩ := readerAfter_of_leadsTo hleads
    exact ⟨n, _, hn, rfl⟩
  | error err =>
    rw [heval] at hcomes
    obtain ⟨q, nesting, hleads⟩ := hcomes
    obtain ⟨n, hn⟩ := readerAfter_of_leadsTo hleads
    exact ⟨n, _, hn, rfl⟩

theorem after_ends {e : Expr} (h : s.readerAfter n = some r) (hends : r.Ends e level outer) :
    ∃ m < n, ∃ before after, s.readerAfter m = some before ∧ before.Begins level outer ∧
      s.readerAfter (n + 1) = some after ∧ before.Completes after level e := by
  have hlevel : level :: outer <:+ r.levels := by rw [hends.levels]
  obtain ⟨m, hm, before, hbefore, hbegins⟩ := begins_of_suffix h hlevel
  have hsound := sound_of_readerAfter h
  have hnesting := hsound.nesting
  have hnesting₀ := (sound_of_readerAfter hbefore).nesting
  obtain ⟨phase, p, nesting, levels⟩ := r
  obtain ⟨rfl, rfl⟩ : phase = .running (.done e) ∧ levels = level :: outer := ⟨hends.1, hends.2⟩
  rw [hbegins.phase] at hnesting₀
  obtain ⟨hcount, -, hfloor, -⟩ := hnesting
  have hcount₀ : before.nesting = outer.length := hbegins.levels ▸ hnesting₀.1
  refine ⟨m, hm, before, ⟨.running (level.next e), p, nesting - 1, outer⟩, hbefore, hbegins,
    readerAfter_succ h, rfl, hbegins.levels.symm, ?_, ?_⟩
  · rw [hcount₀]
    exact Nat.sub_eq_of_eq_add hcount
  · rw [hbegins.position]
    exact hfloor

end TokenStream

/-- The reader of a text stays on its tokens, with a nesting that counts the levels until an error
is raised, and each level begins behind those around it. When an expression has been read, the
nesting is what it was when its level began, and the cursor is farther on. Every run is over at
some point, with what `parse` says of the text. -/
theorem Expr.parse_climbs {text : String} {s : TokenStream} (hs : tokenize text = .ok s) :
    (∀ n, ∃ r, s.readerAfter n = some r ∧ r.Orderly s ∧
      ∀ level outer, level :: outer <:+ r.levels →
        ∃ m < n, ∃ before, s.readerAfter m = some before ∧ before.Begins level outer) ∧
    (∀ n r e level outer, s.readerAfter n = some r → r.Ends e level outer →
      ∃ m < n, ∃ before after, s.readerAfter m = some before ∧ before.Begins level outer ∧
        s.readerAfter (n + 1) = some after ∧ before.Completes after level e ∧
        after.position < s.toList.length) ∧
    ∃ n r, s.readerAfter n = some r ∧ r.answer? = some (parse text) := by
  refine ⟨fun n => ?_, fun n r e level outer hr hends => ?_, TokenStream.exists_answer hs⟩
  · obtain ⟨r, hr, hsound⟩ := s.sound_readerAfter n
    exact ⟨r, hr, hsound.orderly, fun level outer hlevel => TokenStream.begins_of_suffix hr hlevel⟩
  · obtain ⟨m, hm, before, after, hbefore, hbegins, hafter, hcompletes⟩ :=
      TokenStream.after_ends hr hends
    exact ⟨m, hm, before, after, hbefore, hbegins, hafter, hcompletes,
      (TokenStream.sound_of_readerAfter hafter).position_lt⟩

theorem Expr.parse_climbs_broken_off :
    ∃ s, tokenize "(i64(1) + -" = .ok s ∧
      (∃ r level outer, s.readerAfter 14 = some r ∧ r.Ends (.literal 1) level outer ∧
        r.Orderly s ∧ r.nesting = 2 ∧
        ∃ m < 14, ∃ before after, s.readerAfter m = some before ∧ before.Begins level outer ∧
          s.readerAfter 15 = some after ∧ before.Completes after level (.literal 1)) ∧
      ∃ n r, s.readerAfter n = some r ∧
        r.answer? = some (.error ⟨11, .unexpected .endOfText⟩) := by
  obtain ⟨s, hs, r, level, outer, hr, hread, hnesting⟩ :
      ∃ s, tokenize "(i64(1) + -" = .ok s ∧ ∃ r level outer, s.readerAfter 14 = some r ∧
        r.Ends (.literal 1) level outer ∧ r.nesting = 2 :=
    ⟨_, by cbv, _, _, _, rfl, ⟨rfl, rfl⟩, rfl⟩
  have hparse : parse "(i64(1) + -" = .error ⟨11, .unexpected .endOfText⟩ := by cbv
  obtain ⟨horderly, hends, hanswer⟩ := parse_climbs hs
  obtain ⟨r', hr', hsteady, -⟩ := horderly 14
  obtain rfl : r = r' := Option.some.inj (hr.symm.trans hr')
  obtain ⟨m, hm, before, after, hbefore, hbegins, hafter, hcompletes, -⟩ :=
    hends 14 r _ level outer hr hread
  exact ⟨s, hs, ⟨r, level, outer, hr, hread, hsteady, hnesting, m, hm, before, after, hbefore,
    hbegins, hafter, hcompletes⟩, hparse ▸ hanswer⟩

end Arith64

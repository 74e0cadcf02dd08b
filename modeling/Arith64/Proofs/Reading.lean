import Arith64.Proofs.Grammar
import Arith64.Reference.Read

/-!
# The reader accepts the grammar

Each reader is described by the lexemes it steps over. An expression is read
exactly where one of its spellings stands in front and its depth is below the
nesting that is left.
-/

namespace Arith64

theorem bind_eq_ok_iff {ε α β : Type} {x : Except ε α} {f : α → Except ε β} {b : β} :
    (x >>= f) = .ok b ↔ ∃ a, x = .ok a ∧ f a = .ok b := by
  cases x <;> simp [bind, Except.bind]

theorem ok_bind {ε α β : Type} (a : α) (f : α → Except ε β) : (Except.ok a >>= f) = f a := rfl

/-! ## Operators -/

theorem ofInfix?_eq_some_iff {l : Lexeme} {op : BinOp} :
    BinOp.ofInfix? l = some op ↔ op.callName? = none ∧ op.separator = l := by
  cases l <;> cases op <;> simp [BinOp.ofInfix?, BinOp.callName?, BinOp.separator]

theorem ofCallName?_eq_some_iff {name : String} {op : BinOp} :
    BinOp.ofCallName? name = some op ↔ op.callName? = some name := by
  constructor
  · intro h
    unfold BinOp.ofCallName? at h
    simpa using List.find?_some h
  · intro h
    cases op <;> simp [BinOp.callName?] at h <;> subst h <;> decide

theorem BinOp.separator_ne_endOfText (op : BinOp) : op.separator ≠ .endOfText := by
  cases op <;> simp [BinOp.separator]

theorem opening_of_none {op : BinOp} (h : op.callName? = none) : op.opening = [.openParen] := by
  rw [BinOp.opening, h]

theorem opening_of_call {op : BinOp} {name : String} (h : op.callName? = some name) :
    op.opening = [.name name, .openParen] := by
  rw [BinOp.opening, h]

theorem separator_of_call {op : BinOp} {name : String} (h : op.callName? = some name) :
    op.separator = .comma := by
  cases op <;> simp_all [BinOp.callName?, BinOp.separator]

theorem callName_ne_marker {op : BinOp} {name : String} (h : op.callName? = some name) :
    name ≠ "i64" := by
  rintro rfl
  cases op <;> simp [BinOp.callName?] at h

/-! ## What stands in front -/

namespace TokenStream

/-- The lexemes `ls` stand in front, and `s'` is left behind them. -/
def Shows (s : TokenStream) (ls : List Lexeme) (s' : TokenStream) : Prop :=
  ∃ tokens, tokens.map Token.lexeme = ls ∧ s = ⟨tokens ++ s'.tokens, s'.stop⟩

variable {s s' : TokenStream}

theorem shows_nil : s.Shows [] s' ↔ s = s' := by
  simp [Shows]

theorem shows_cons {l : Lexeme} {ls : List Lexeme} (h : l ≠ .endOfText) :
    s.Shows (l :: ls) s' ↔ s.front.lexeme = l ∧ s.rest.Shows ls s' := by
  constructor
  · rintro ⟨tokens, hls, rfl⟩
    obtain ⟨t, tokens, rfl, rfl, rfl⟩ := List.map_eq_cons_iff.mp hls
    exact ⟨rfl, tokens, rfl, rfl⟩
  · rintro ⟨hfront, tokens, hls, hrest⟩
    obtain ⟨_ | ⟨t, ts⟩, stop⟩ := s
    · -- The end of the text stands in front.
      exact absurd hfront.symm h
    · simp only [rest, List.tail_cons, TokenStream.mk.injEq] at hrest
      refine ⟨t :: tokens, ?_, ?_⟩
      · rw [List.map_cons, hls]
        exact congrArg (· :: ls) hfront
      · simp [hrest.1, hrest.2]

theorem shows_append {xs ys : List Lexeme} :
    s.Shows (xs ++ ys) s' ↔ ∃ m, s.Shows xs m ∧ m.Shows ys s' := by
  constructor
  · rintro ⟨tokens, hls, rfl⟩
    obtain ⟨ts, us, rfl, hts, hus⟩ := List.map_eq_append_iff.mp hls
    exact ⟨⟨us ++ s'.tokens, s'.stop⟩, ⟨ts, hts, by simp⟩, us, hus, rfl⟩
  · rintro ⟨m, ⟨ts, rfl, rfl⟩, us, rfl, rfl⟩
    exact ⟨ts ++ us, by simp, by simp⟩

theorem shows_singleton {l : Lexeme} (h : l ≠ .endOfText) :
    s.Shows [l] s' ↔ s.front.lexeme = l ∧ s.rest = s' := by
  rw [shows_cons h, shows_nil]

/-! ## One lexeme -/

theorem refuse_ne_ok {α : Type} {cause : Lexeme → SyntaxCause} {a : α} :
    s.refuse cause ≠ .ok a := by
  simp [refuse]

theorem expect_eq_ok_iff {wanted : Lexeme} (h : wanted ≠ .endOfText) :
    s.expect wanted = .ok s' ↔ s.Shows [wanted] s' := by
  rw [shows_singleton h, expect]
  split <;> simp_all [refuse]

end TokenStream

/-! ## Literals -/

theorem signedWord?_eq_some_iff {negative : Bool} {m : Nat} {v : Int64} :
    signedWord? negative m = some v ↔ v.toInt = if negative then -(m : Int) else m := by
  have hmin : Int64.minValue.toInt = -2 ^ 63 := by decide
  have hmax : Int64.maxValue.toInt = 2 ^ 63 - 1 := by decide
  have hge := v.le_toInt
  have hlt := v.toInt_lt
  simp only [signedWord?, hmin, hmax]
  generalize (if negative then -(m : Int) else m) = n
  split
  · rename_i h
    rw [Option.some.injEq, ← Int64.toInt_inj, Int64.toInt_ofInt_of_le (by omega) (by omega)]
    exact eq_comm
  · simp only [reduceCtorEq, false_iff]
    omega

namespace TokenStream

variable {s s' : TokenStream}

theorem shows_sign (s : TokenStream) :
    s.Shows (if s.front.lexeme == .minus then [.minus] else [])
      (if s.front.lexeme == .minus then s.rest else s) := by
  split
  · rename_i h
    rw [shows_singleton (by simp)]
    exact ⟨by simpa using h, rfl⟩
  · exact shows_nil.mpr rfl

theorem readLiteral_eq_ok_iff {e : Expr} :
    s.readLiteral = .ok (e, s') ↔
      ∃ v ls, e = .literal v ∧ Spells (.literal v) (.name "i64" :: ls) ∧ s.Shows ls s' := by
  constructor
  · intro h
    rw [readLiteral, bind_eq_ok_iff] at h
    obtain ⟨s1, h1, h⟩ := h
    rw [expect_eq_ok_iff (by simp)] at h1
    have hsign := shows_sign s1
    generalize (s1.front.lexeme == .minus) = negative at h hsign
    simp only at h
    generalize (if negative then s1.rest else s1) = s2 at h hsign
    split at h
    · rename_i m hm
      split at h
      · rename_i v hv
        obtain ⟨s3, h3, h⟩ := bind_eq_ok_iff.mp h
        rw [expect_eq_ok_iff (by simp)] at h3
        cases h
        have hdigits : s2.Shows [.integer m, .closeParen] s' :=
          (shows_cons (by simp)).mpr ⟨hm, h3⟩
        have hall := shows_append.mpr ⟨s1, h1, shows_append.mpr ⟨s2, hsign, hdigits⟩⟩
        exact ⟨v, _, rfl, .literal (signedWord?_eq_some_iff.mp hv), hall⟩
      · exact absurd h refuse_ne_ok
    · exact absurd h refuse_ne_ok
  · rintro ⟨v, ls, rfl, hspells, hshows⟩
    cases hspells with
    | @literal _ negative m hv =>
      rw [shows_cons (by simp)] at hshows
      obtain ⟨hopen, hshows⟩ := hshows
      obtain ⟨s2, hsign, hdigits⟩ := shows_append.mp hshows
      obtain ⟨hm, hclose⟩ := (shows_cons (by simp)).mp hdigits
      have hexpect := (expect_eq_ok_iff (by simp)).mpr hclose
      have hv' := signedWord?_eq_some_iff.mpr hv
      rw [readLiteral, (expect_eq_ok_iff (by simp)).mpr
        ((shows_singleton (by simp)).mpr ⟨hopen, rfl⟩), ok_bind]
      cases negative with
      | false =>
        obtain rfl := shows_nil.mp hsign
        have hdigit : (s.rest.front.lexeme == .minus) = false := by simp [hm]
        simp only [hdigit, Bool.false_eq_true, if_false]
        simp only [hm, hv', hexpect, ok_bind]
        rfl
      | true =>
        obtain ⟨hminus, rfl⟩ := (shows_singleton (by simp)).mp hsign
        simp only [hminus, beq_self_eq_true, if_true, hm, hv', hexpect, ok_bind]
        rfl

/-! ## Where an expression stands -/

/-- A spelling of the expression stands in front, and the expression is less deep than `budget`. -/
def Stands (s : TokenStream) (budget : Nat) (e : Expr) (s' : TokenStream) : Prop :=
  e.depth < budget ∧ ∃ ls, Spells e ls ∧ s.Shows ls s'

namespace Stands

variable {budget : Nat} {e l r : Expr} {s0 s1 s2 s3 : TokenStream}

theorem literal {v : Int64} {ls : List Lexeme} (hfront : s.front.lexeme = .name "i64")
    (hspells : Spells (.literal v) (.name "i64" :: ls)) (hshows : s.rest.Shows ls s') :
    s.Stands (budget + 1) (.literal v) s' :=
  ⟨Nat.succ_pos budget, _, hspells, (shows_cons (by simp)).mpr ⟨hfront, hshows⟩⟩

theorem negate (hfront : s.front.lexeme = .minus) (h : s.rest.Stands budget e s') :
    s.Stands (budget + 1) (.negate e) s' := by
  obtain ⟨hdepth, ls, hls, hshows⟩ := h
  exact ⟨Nat.succ_lt_succ hdepth, _, .negate hls, (shows_cons (by simp)).mpr ⟨hfront, hshows⟩⟩

theorem group (hfront : s.front.lexeme = .openParen) (h : s.rest.Stands budget e s0)
    (hclose : s0.Shows [.closeParen] s') : s.Stands (budget + 1) (.group e) s' := by
  obtain ⟨hdepth, ls, hls, hshows⟩ := h
  refine ⟨Nat.succ_lt_succ hdepth, _, .group hls, ?_⟩
  rw [shows_cons (by simp), shows_append]
  exact ⟨hfront, s0, hshows, hclose⟩

theorem binary {op : BinOp} (hopen : s.Shows op.opening s0) (hl : s0.Stands budget l s1)
    (hsep : s1.Shows [op.separator] s2) (hr : s2.Stands budget r s3)
    (hclose : s3.Shows [.closeParen] s') : s.Stands (budget + 1) (.binary op l r) s' := by
  obtain ⟨hdl, ls, hls, hshowsl⟩ := hl
  obtain ⟨hdr, rs, hrs, hshowsr⟩ := hr
  refine ⟨Nat.succ_lt_succ (Nat.max_lt.mpr ⟨hdl, hdr⟩), _, .binary hls hrs, ?_⟩
  rw [← List.singleton_append]
  simp only [shows_append]
  exact ⟨s0, hopen, s1, hshowsl, s2, hsep, s3, hshowsr, hclose⟩

end Stands

/-! ## Expressions -/

theorem readExpr_sound {budget : Nat} {e : Expr} (h : readExpr budget s = .ok (e, s')) :
    s.Stands budget e s' := by
  induction budget generalizing s e s' with
  | zero => exact absurd h refuse_ne_ok
  | succ budget ih =>
    unfold readExpr at h
    split at h
    · rename_i hminus
      obtain ⟨⟨operand, s1⟩, hread, h⟩ := bind_eq_ok_iff.mp h
      cases h
      exact .negate hminus (ih hread)
    · rename_i hopen
      obtain ⟨⟨l, s1⟩, hleft, h⟩ := bind_eq_ok_iff.mp h
      simp only at h
      split at h
      · rename_i hclose
        cases h
        exact .group hopen (ih hleft) ((shows_singleton (by simp)).mpr ⟨hclose, rfl⟩)
      · split at h
        · rename_i op hop
          obtain ⟨⟨r, s3⟩, hright, h⟩ := bind_eq_ok_iff.mp h
          obtain ⟨s4, hclose, h⟩ := bind_eq_ok_iff.mp h
          cases h
          obtain ⟨hnone, hsep⟩ := ofInfix?_eq_some_iff.mp hop
          have hopening : s.Shows op.opening s.rest := by
            rw [opening_of_none hnone, shows_singleton (by simp)]
            exact ⟨hopen, rfl⟩
          have hseparator : s1.Shows [op.separator] s1.rest := by
            rw [shows_singleton op.separator_ne_endOfText]
            exact ⟨hsep.symm, rfl⟩
          exact .binary hopening (ih hleft) hseparator (ih hright)
            ((expect_eq_ok_iff (by simp)).mp hclose)
        · exact absurd h refuse_ne_ok
    · rename_i name hname
      split at h
      · rename_i hmarker
        rw [hmarker] at hname
        obtain ⟨v, ls, rfl, hspells, hshows⟩ := readLiteral_eq_ok_iff.mp h
        exact .literal hname hspells hshows
      · split at h
        · rename_i op hop
          obtain ⟨s0, hopen, h⟩ := bind_eq_ok_iff.mp h
          obtain ⟨⟨l, s1⟩, hleft, h⟩ := bind_eq_ok_iff.mp h
          obtain ⟨s2, hcomma, h⟩ := bind_eq_ok_iff.mp h
          obtain ⟨⟨r, s3⟩, hright, h⟩ := bind_eq_ok_iff.mp h
          obtain ⟨s4, hclose, h⟩ := bind_eq_ok_iff.mp h
          cases h
          have hcall := ofCallName?_eq_some_iff.mp hop
          have hopening : s.Shows op.opening s0 := by
            rw [opening_of_call hcall, shows_cons (by simp)]
            exact ⟨hname, (expect_eq_ok_iff (by simp)).mp hopen⟩
          have hseparator : s1.Shows [op.separator] s2 := by
            rw [separator_of_call hcall]
            exact (expect_eq_ok_iff (by simp)).mp hcomma
          exact .binary hopening (ih hleft) hseparator (ih hright)
            ((expect_eq_ok_iff (by simp)).mp hclose)
        · exact absurd h refuse_ne_ok
    · exact absurd h refuse_ne_ok

section Steps

variable {budget : Nat} {e l r : Expr} {op : BinOp} {s0 s1 s2 s3 : TokenStream}

theorem readExpr_negate (hfront : s.front.lexeme = .minus)
    (h : readExpr budget s.rest = .ok (e, s')) :
    readExpr (budget + 1) s = .ok (.negate e, s') := by
  unfold readExpr
  simp only [hfront, h, ok_bind]
  rfl

theorem readExpr_group (hfront : s.front.lexeme = .openParen)
    (h : readExpr budget s.rest = .ok (e, s0)) (hclose : s0.Shows [.closeParen] s') :
    readExpr (budget + 1) s = .ok (.group e, s') := by
  obtain ⟨hs0, rfl⟩ := (shows_singleton (by simp)).mp hclose
  unfold readExpr
  simp only [hfront, h, ok_bind, hs0, if_true]
  rfl

theorem readExpr_infix (hnone : op.callName? = none) (hopen : s.Shows op.opening s0)
    (hl : readExpr budget s0 = .ok (l, s1)) (hsep : s1.Shows [op.separator] s2)
    (hr : readExpr budget s2 = .ok (r, s3)) (hclose : s3.Shows [.closeParen] s') :
    readExpr (budget + 1) s = .ok (.binary op l r, s') := by
  rw [opening_of_none hnone] at hopen
  obtain ⟨hfront, rfl⟩ := (shows_singleton (by simp)).mp hopen
  obtain ⟨hs1, rfl⟩ := (shows_singleton op.separator_ne_endOfText).mp hsep
  have hop := ofInfix?_eq_some_iff.mpr ⟨hnone, hs1.symm⟩
  have hend := (expect_eq_ok_iff (by simp)).mpr hclose
  -- A group would end here.
  have hgoes : s1.front.lexeme ≠ .closeParen := by
    rw [hs1]
    cases op <;> simp [BinOp.separator]
  unfold readExpr
  simp only [hfront, hl, ok_bind, hgoes, if_false, hop, hr, hend]
  rfl

theorem readExpr_call {name : String} (hcall : op.callName? = some name)
    (hopen : s.Shows op.opening s0) (hl : readExpr budget s0 = .ok (l, s1))
    (hsep : s1.Shows [op.separator] s2) (hr : readExpr budget s2 = .ok (r, s3))
    (hclose : s3.Shows [.closeParen] s') :
    readExpr (budget + 1) s = .ok (.binary op l r, s') := by
  rw [opening_of_call hcall] at hopen
  rw [separator_of_call hcall] at hsep
  obtain ⟨hfront, hparen⟩ := (shows_cons (by simp)).mp hopen
  have hbegin := (expect_eq_ok_iff (by simp)).mpr hparen
  have hcomma := (expect_eq_ok_iff (by simp)).mpr hsep
  have hend := (expect_eq_ok_iff (by simp)).mpr hclose
  have hop := ofCallName?_eq_some_iff.mpr hcall
  unfold readExpr
  simp only [hfront, callName_ne_marker hcall, if_false, hop, ok_bind, hbegin, hl, hcomma, hr, hend]
  rfl

end Steps

theorem readExpr_of_spells {budget : Nat} {e : Expr} {ls : List Lexeme} (h : Spells e ls)
    (hdepth : e.depth < budget) (hshows : s.Shows ls s') : readExpr budget s = .ok (e, s') := by
  induction h generalizing budget s s' with
  | literal hv =>
    obtain ⟨budget, rfl⟩ := Nat.exists_eq_add_one_of_ne_zero (Nat.ne_zero_of_lt hdepth)
    obtain ⟨hfront, hrest⟩ := (shows_cons (by simp)).mp hshows
    simp only [readExpr, hfront, if_true]
    exact readLiteral_eq_ok_iff.mpr ⟨_, _, rfl, .literal hv, hrest⟩
  | negate _ ih =>
    obtain ⟨budget, rfl⟩ := Nat.exists_eq_add_one_of_ne_zero (Nat.ne_zero_of_lt hdepth)
    obtain ⟨hfront, hrest⟩ := (shows_cons (by simp)).mp hshows
    exact readExpr_negate hfront (ih (Nat.lt_of_succ_lt_succ hdepth) hrest)
  | @binary op l r ls rs _ _ ihl ihr =>
    obtain ⟨budget, rfl⟩ := Nat.exists_eq_add_one_of_ne_zero (Nat.ne_zero_of_lt hdepth)
    obtain ⟨hdl, hdr⟩ := Nat.max_lt.mp (Nat.lt_of_succ_lt_succ hdepth)
    rw [← List.singleton_append] at hshows
    simp only [shows_append] at hshows
    obtain ⟨s0, hopen, s1, hl, s2, hsep, s3, hr, hclose⟩ := hshows
    cases hcall : op.callName? with
    | none => exact readExpr_infix hcall hopen (ihl hdl hl) hsep (ihr hdr hr) hclose
    | some name => exact readExpr_call hcall hopen (ihl hdl hl) hsep (ihr hdr hr) hclose
  | group _ ih =>
    obtain ⟨budget, rfl⟩ := Nat.exists_eq_add_one_of_ne_zero (Nat.ne_zero_of_lt hdepth)
    rw [shows_cons (by simp), shows_append] at hshows
    obtain ⟨hfront, s0, hinner, hclose⟩ := hshows
    exact readExpr_group hfront (ih (Nat.lt_of_succ_lt_succ hdepth) hinner) hclose

theorem readExpr_eq_ok_iff {budget : Nat} {e : Expr} :
    readExpr budget s = .ok (e, s') ↔ s.Stands budget e s' := by
  constructor
  · exact readExpr_sound
  · rintro ⟨hdepth, ls, hspells, hshows⟩
    exact readExpr_of_spells hspells hdepth hshows

end TokenStream

/-! ## No two expressions share a spelling -/

/-- A stream of these lexemes, wherever they stand. -/
def TokenStream.ofLexemes (ls : List Lexeme) : TokenStream := ⟨ls.map fun l => ⟨l, 0, 0⟩, 0⟩

theorem TokenStream.shows_ofLexemes (ls rest : List Lexeme) :
    (ofLexemes (ls ++ rest)).Shows ls (ofLexemes rest) :=
  ⟨ls.map fun l => ⟨l, 0, 0⟩, by simp [Function.comp_def], by simp [ofLexemes]⟩

theorem TokenStream.ofLexemes_inj {xs ys : List Lexeme} (h : ofLexemes xs = ofLexemes ys) :
    xs = ys := by
  have hmap : (ofLexemes xs).tokens.map Token.lexeme = (ofLexemes ys).tokens.map Token.lexeme := by
    rw [h]
  simpa [ofLexemes, Function.comp_def] using hmap

/-- Spellings are prefix-free: one can be cut off the front in one way only. -/
theorem Spells.append_inj {a b : Expr} {xs ys r s : List Lexeme} (ha : Spells a xs)
    (hb : Spells b ys) (h : xs ++ r = ys ++ s) : a = b ∧ xs = ys ∧ r = s := by
  -- Read with a budget that is enough for both.
  have hreada := TokenStream.readExpr_of_spells ha
    (Nat.lt_add_one_of_le (Nat.le_max_left a.depth b.depth)) (TokenStream.shows_ofLexemes xs r)
  have hreadb := TokenStream.readExpr_of_spells hb
    (Nat.lt_add_one_of_le (Nat.le_max_right a.depth b.depth)) (TokenStream.shows_ofLexemes ys s)
  rw [h, hreadb, Except.ok.injEq, Prod.mk.injEq] at hreada
  obtain ⟨hexpr, hstream⟩ := hreada
  obtain rfl := TokenStream.ofLexemes_inj hstream
  exact ⟨hexpr.symm, List.append_cancel_right h, rfl⟩

theorem Spells.unique {a b : Expr} {ls : List Lexeme} (ha : Spells a ls) (hb : Spells b ls) :
    a = b :=
  (ha.append_inj hb (r := []) (s := []) rfl).1

end Arith64

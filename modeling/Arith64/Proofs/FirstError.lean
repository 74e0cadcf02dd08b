import Arith64.Proofs.Continuation
import Arith64.Proofs.Places
import Arith64.Proofs.RoundTrip

/-!
# An error is at the first wrong token

The tokens in front of an error can go on to a whole text, and with the token
at the error they cannot, unless the nesting is what ends the reading. In that
case an expression has to start there, as deep as the limit, however the text
goes on.
-/

namespace Arith64

theorem bind_eq_error_iff {ε α β : Type} {x : Except ε α} {f : α → Except ε β} {err : ε} :
    (x >>= f) = .error err ↔ x = .error err ∨ ∃ a, x = .ok a ∧ f a = .error err := by
  cases x <;> simp [bind, Except.bind]

namespace TokenStream

variable {s s' s1 : TokenStream} {budget : Nat} {err : SyntaxError} {front : List Lexeme}

/-! ## One error -/

/-- The error is at the first token that no spelling has behind the ones before it, or at one
where an expression starts that is too deep for the budget. -/
def Blocks (s : TokenStream) (budget : Nat) (err : SyntaxError) : Prop :=
  ∃ front s', s.Shows front s' ∧ err.offset = s'.front.start ∧ Inside front ∧
    if err.cause = .nestedTooDeeply then Opens budget front else Refuses front s'.front.lexeme

theorem Blocks.behind (h : s1.Blocks budget err) (hleads : Leads front)
    (hshows : s.Shows front s1) : s.Blocks (budget + 1) err := by
  obtain ⟨inner, s', hinner, hoffset, hinside, hcause⟩ := h
  refine ⟨front ++ inner, s', shows_append.mpr ⟨s1, hshows, hinner⟩, hoffset,
    hleads.inside hinside, ?_⟩
  split
  · rename_i hdeep
    rw [if_pos hdeep] at hcause
    exact hleads.opens hcause
  · rename_i hwrong
    rw [if_neg hwrong] at hcause
    exact hleads.refuses hcause

theorem Blocks.refused {α : Type} {cause : Lexeme → SyntaxCause}
    (h : (s'.refuse cause : Except SyntaxError α) = .error err) (hshows : s.Shows front s')
    (hinside : Inside front) (hcause : cause s'.front.lexeme ≠ .nestedTooDeeply)
    (hrefuses : Refuses front s'.front.lexeme) : s.Blocks budget err := by
  cases h
  exact ⟨front, s', hshows, rfl, hinside, by rwa [if_neg hcause]⟩

theorem Blocks.unexpected {wanted : Lexeme} (h : s'.expect wanted = .error err)
    (hshows : s.Shows front s') (hinside : Inside front)
    (hrefuses : s'.front.lexeme ≠ wanted → Refuses front s'.front.lexeme) :
    s.Blocks budget err := by
  unfold expect at h
  split at h
  · cases h
  · rename_i hwrong
    exact .refused h hshows hinside (by simp) (hrefuses hwrong)

/-! ## Errors of the readers -/

theorem readLiteral_error (hfront : s.front.lexeme = .name "i64")
    (h : s.rest.readLiteral = .error err) : s.Blocks budget err := by
  have hmarker : s.Shows [.name "i64"] s.rest := (shows_singleton (by simp)).mpr ⟨hfront, rfl⟩
  rw [readLiteral, bind_eq_error_iff] at h
  rcases h with h | ⟨s1, h1, h⟩
  · exact .unexpected h hmarker ((inside_sign false).of_longer ⟨_, rfl⟩) refuses_name
  rw [expect_eq_ok_iff (by simp)] at h1
  have hsign := shows_sign s1
  have hminus : (s1.front.lexeme == .minus) = false →
      (if s1.front.lexeme == .minus then s1.rest else s1).front.lexeme ≠ .minus := by
    intro hno
    rw [hno]
    simpa using hno
  generalize (s1.front.lexeme == .minus) = negative at h hsign hminus
  simp only at h
  generalize (if negative then s1.rest else s1) = s2 at h hsign hminus
  have hshows : s.Shows (.name "i64" :: .openParen :: signLexemes negative) s2 :=
    shows_append.mpr ⟨s.rest, hmarker, shows_append.mpr ⟨s1, h1, hsign⟩⟩
  split at h
  · rename_i m hm
    split at h
    · rename_i v hv
      have hdigits : s.Shows (.name "i64" :: .openParen :: (signLexemes negative ++ [.integer m]))
          s2.rest :=
        shows_append.mpr ⟨s2, hshows, (shows_singleton (by simp)).mpr ⟨hm, rfl⟩⟩
      rcases bind_eq_error_iff.mp h with h | ⟨_, -, ⟨⟩⟩
      exact .unexpected h hdigits (inside_digits hv) refuses_literal_close
    · rename_i hnone
      refine .refused h hshows (inside_sign negative) (by simp) (refuses_digits hminus ?_)
      intro m' hm'
      rw [hm] at hm'
      cases hm'
      exact hnone
  · rename_i hno
    refine .refused h hshows (inside_sign negative) (by simp) (refuses_digits hminus ?_)
    intro m hm
    exact absurd hm (hno m)

section Operands

variable {op : BinOp} {l : Expr} {ls : List Lexeme}
  (ih : ∀ {s err}, readExpr budget s = .error err → s.Blocks budget err)
include ih

theorem readRight_error (hl : Spells l ls)
    (hshows : s.Shows (op.opening ++ (ls ++ [op.separator])) s1)
    (h : (do
      let (right, s) ← readExpr budget s1
      let s ← s.expect .closeParen
      return (Expr.binary op l right, s)) = .error err) : s.Blocks (budget + 1) err := by
  rcases bind_eq_error_iff.mp h with h | ⟨⟨r, s2⟩, hright, h⟩
  · exact (ih h).behind (leads_separator op hl) hshows
  · obtain ⟨-, rs, hrs, hshowsr⟩ := readExpr_sound hright
    have hfront : s.Shows (op.opening ++ (ls ++ op.separator :: rs)) s2 := by
      have hall := shows_append.mpr ⟨s1, hshows, hshowsr⟩
      simpa using hall
    have hinside : Inside (op.opening ++ (ls ++ op.separator :: rs)) := by
      have hspells : Spells (.binary op l r) _ := .binary hl hrs
      exact hspells.inside.of_longer ⟨[.closeParen], by simp⟩
    rcases bind_eq_error_iff.mp h with h | ⟨_, -, ⟨⟩⟩
    exact .unexpected h hfront hinside (refuses_close hl hrs)

theorem readParen_error (hopen : s.front.lexeme = .openParen)
    (h : (do
      let (left, s) ← readExpr budget s.rest
      if s.front.lexeme = Lexeme.closeParen then
        return (Expr.group left, s.rest)
      else
        match BinOp.ofInfix? s.front.lexeme with
        | some op => do
          let (right, s) ← readExpr budget s.rest
          let s ← s.expect .closeParen
          return (.binary op left right, s)
        | none => s.refuse .expectedInfix) = .error err) : s.Blocks (budget + 1) err := by
  have hopening : s.Shows (BinOp.opening .add) s.rest :=
    (shows_singleton (by simp)).mpr ⟨hopen, rfl⟩
  rcases bind_eq_error_iff.mp h with h | ⟨⟨l, s1⟩, hleft, h⟩
  · exact (ih h).behind (leads_opening .add) hopening
  obtain ⟨-, ls, hls, hshowsl⟩ := readExpr_sound hleft
  simp only at h
  split at h
  · cases h
  rename_i hclose
  split at h
  · rename_i op hop
    obtain ⟨hcall, hsep⟩ := ofInfix?_eq_some_iff.mp hop
    have hsame : BinOp.opening .add = op.opening := (opening_of_none hcall).symm
    have hseparator : s1.Shows [op.separator] s1.rest :=
      (shows_singleton op.separator_ne_endOfText).mpr ⟨hsep.symm, rfl⟩
    rw [hsame] at hopening
    exact readRight_error ih hls (shows_append.mpr
      ⟨s.rest, hopening, shows_append.mpr ⟨s1, hshowsl, hseparator⟩⟩) h
  · rename_i hnone
    refine .refused h (shows_append.mpr ⟨s.rest, hopening, hshowsl⟩)
      ((leads_opening .add).inside hls.inside) (by simp)
      (refuses_separator hls (fun _ => hclose) ?_)
    intro op hsame hsep
    have hsome := ofInfix?_eq_some_iff.mpr ⟨callName?_of_opening hsame, hsep.symm⟩
    rw [hnone] at hsome
    cases hsome

theorem readCall_error {name : String} (hcall : op.callName? = some name)
    (hname : s.front.lexeme = .name name)
    (h : (do
      let s ← s.rest.expect .openParen
      let (left, s) ← readExpr budget s
      let s ← s.expect .comma
      let (right, s) ← readExpr budget s
      let s ← s.expect .closeParen
      return (Expr.binary op left right, s)) = .error err) : s.Blocks (budget + 1) err := by
  have hshows : s.Shows [.name name] s.rest := (shows_singleton (by simp)).mpr ⟨hname, rfl⟩
  have hopening := opening_of_call hcall
  rcases bind_eq_error_iff.mp h with h | ⟨s0, hopen, h⟩
  · refine .unexpected h hshows ?_ refuses_name
    exact ((leads_opening op).inside inside_nil).of_longer (by simp [hopening])
  have hopened : s.Shows op.opening s0 := by
    rw [hopening]
    exact shows_append.mpr ⟨s.rest, hshows, (expect_eq_ok_iff (by simp)).mp hopen⟩
  rcases bind_eq_error_iff.mp h with h | ⟨⟨l, s1⟩, hleft, h⟩
  · exact (ih h).behind (leads_opening op) hopened
  obtain ⟨-, ls, hls, hshowsl⟩ := readExpr_sound hleft
  rcases bind_eq_error_iff.mp h with h | ⟨s2, hcomma, h⟩
  · refine .unexpected h (shows_append.mpr ⟨s0, hopened, hshowsl⟩)
      ((leads_opening op).inside hls.inside) ?_
    intro hwrong
    refine refuses_separator hls (by simp [hcall]) ?_
    intro op' hsame
    rwa [separator_of_call ((callName?_of_opening hsame).trans hcall)]
  have hseparator : s1.Shows [op.separator] s2 := by
    rw [separator_of_call hcall]
    exact (expect_eq_ok_iff (by simp)).mp hcomma
  exact readRight_error ih hls (shows_append.mpr
    ⟨s0, hopened, shows_append.mpr ⟨s1, hshowsl, hseparator⟩⟩) h

end Operands

theorem readExpr_error (h : readExpr budget s = .error err) : s.Blocks budget err := by
  induction budget generalizing s err with
  | zero =>
    cases h
    exact ⟨[], s, shows_nil.mpr rfl, rfl, inside_nil, opens_nil⟩
  | succ budget ih =>
    unfold readExpr at h
    split at h
    · rename_i hminus
      rcases bind_eq_error_iff.mp h with h | ⟨_, -, ⟨⟩⟩
      exact (ih h).behind leads_minus ((shows_singleton (by simp)).mpr ⟨hminus, rfl⟩)
    · rename_i hopen
      exact readParen_error ih hopen h
    · rename_i name hname
      split at h
      · rename_i hmarker
        rw [hmarker] at hname
        exact readLiteral_error hname h
      · rename_i hother
        split at h
        · rename_i op hop
          exact readCall_error ih (ofCallName?_eq_some_iff.mp hop) hname h
        · rename_i hnone
          refine .refused h (shows_nil.mpr rfl) inside_nil (by simp) (refuses_first ?_ ?_ ?_)
          · simp [hname]
          · simp [hname]
          · intro f hf
            rw [hname] at hf
            cases hf
            exact ⟨hother, hnone⟩
    · rename_i hminus hopen hname
      refine .refused h (shows_nil.mpr rfl) inside_nil (by simp) (refuses_first hminus hopen ?_)
      intro f hf
      exact absurd hf (hname f)

/-! ## The lexemes of a whole text -/

theorem toList_of_shows (h : s.Shows front s') :
    ∃ before after, s.toList = before ++ s'.front :: after ∧ before.map Token.lexeme = front := by
  obtain ⟨before, hfront, rfl⟩ := h
  obtain ⟨_ | ⟨t, ts⟩, stop⟩ := s'
  · exact ⟨before, [], by simp [toList, TokenStream.front, endMark], hfront⟩
  · exact ⟨before, ts ++ [⟨.endOfText, stop, stop⟩], by simp [toList, TokenStream.front, endMark],
      hfront⟩

end TokenStream

theorem Refuses.not_viable {front : List Lexeme} {found : Lexeme} (h : Refuses front found) :
    ¬ Viable (front ++ [found]) := by
  rintro ⟨e, body, hbody, more, heq⟩
  exact h hbody (by simpa using heq)

theorem Opens.starts_iff {front body : List Lexeme} {e : Expr} {level : Nat}
    (h : Opens level front) (hbody : Spells e body) (hfront : front <+: body ++ [.endOfText])
    (level' : Nat) : Starts e body level' front.length ↔ level' = level := by
  obtain ⟨more, heq⟩ := hfront
  have hstarts := h hbody heq
  constructor
  · intro h'
    exact h'.level_unique hstarts
  · rintro rfl
    exact hstarts

theorem Spells.refuses_rest {e : Expr} {ls : List Lexeme} {found : Lexeme} (h : Spells e ls)
    (hfound : found ≠ .endOfText) : ¬ Viable (ls ++ [found]) := by
  rintro ⟨e', body, hbody, more, heq⟩
  have htail : ls ++ found :: more = body ++ [.endOfText] := by simpa using heq
  obtain ⟨-, -, hend⟩ := h.append_inj hbody htail
  exact hfound (List.cons.inj hend).1

/-! ## The wording of an error -/

theorem append_ne_of_take {word rest text : String} (hword : 4 ≤ word.toList.length)
    (h : word.toList.take 4 ≠ text.toList.take 4) : word ++ rest ≠ text := by
  rintro rfl
  rw [String.toList_append, List.take_append_of_le_length hword] at h
  exact h rfl

theorem SyntaxCause.message_eq_nested_iff {cause : SyntaxCause} :
    cause.message = "expression nested too deeply" ↔ cause = .nestedTooDeeply := by
  unfold message
  constructor
  · intro h
    split at h
    all_goals try simp only [String.append_assoc] at h
    case h_3 => rfl
    case h_9 => exact absurd h (by decide)
    -- every other wording differs in its first four letters
    all_goals exact absurd h (append_ne_of_take (by decide) (by decide))
  · rintro rfl
    rfl

/-! ## Whole texts -/

namespace Expr

theorem parse_error_blocks {text : String} {s : TokenStream} {err : SyntaxError}
    (hs : tokenize text = .ok s) (h : parse text = .error err) :
    ∃ front s', s.Shows front s' ∧ err.offset = s'.front.start ∧ Viable front ∧
      if err.cause = .nestedTooDeeply then Opens nestingLimit front
      else ¬ Viable (front ++ [s'.front.lexeme]) := by
  rw [parse, hs, ok_bind, bind_eq_error_iff] at h
  rcases h with h | ⟨⟨e, m⟩, hread, h⟩
  · obtain ⟨front, s', hshows, hoffset, hinside, hcause⟩ := TokenStream.readExpr_error h
    refine ⟨front, s', hshows, hoffset, hinside.viable, ?_⟩
    split
    · rename_i hdeep
      rwa [if_pos hdeep] at hcause
    · rename_i hwrong
      rw [if_neg hwrong] at hcause
      exact hcause.not_viable
  · obtain ⟨-, ls, hls, hshows⟩ := TokenStream.readExpr_sound hread
    rcases bind_eq_error_iff.mp h with h | ⟨_, -, ⟨⟩⟩
    simp only [TokenStream.expect] at h
    split at h
    · cases h
    · rename_i hrest
      cases h
      exact ⟨ls, m, hshows, rfl, hls.inside.viable, hls.refuses_rest hrest⟩

/-- An error of a text is at the start of one token. The tokens before it can go on to a whole
text, and with it they cannot. If the nesting is the error, an expression has to start there at
the level of the limit, however they go on. -/
theorem parse_error_at_first_wrong {text : String} {s : TokenStream} {err : SyntaxError}
    (hs : tokenize text = .ok s) (h : parse text = .error err) :
    ∃ before token after, s.toList = before ++ token :: after ∧ token.start = err.offset ∧
      (∀ t ∈ before ++ after, t.start ≠ err.offset) ∧ Viable (before.map Token.lexeme) ∧
      (err.cause.message ≠ "expression nested too deeply" →
        ¬ Viable ((before ++ [token]).map Token.lexeme)) ∧
      (err.cause.message = "expression nested too deeply" →
        ∀ e body, Spells e body → before.map Token.lexeme <+: body ++ [.endOfText] →
          ∀ level, Starts e body level before.length ↔ level = 512) := by
  obtain ⟨front, s', hshows, hoffset, hviable, hcause⟩ := parse_error_blocks hs h
  obtain ⟨before, after, hall, rfl⟩ := TokenStream.toList_of_shows hshows
  refine ⟨before, s'.front, after, hall, hoffset.symm, ?_, hviable, ?_, ?_⟩
  · have hstarts := starts_increase_of_tokenize hs
    rw [hall, List.pairwise_append, List.pairwise_cons] at hstarts
    obtain ⟨-, ⟨hafter, -⟩, hbefore⟩ := hstarts
    intro t ht
    rw [hoffset]
    rcases List.mem_append.mp ht with ht | ht
    · exact Nat.ne_of_lt (hbefore t ht _ List.mem_cons_self)
    · exact Nat.ne_of_gt (hafter t ht)
  · intro hmessage
    rw [ne_eq, SyntaxCause.message_eq_nested_iff] at hmessage
    rw [if_neg hmessage] at hcause
    simpa using hcause
  · intro hmessage e body hbody hprefix level
    rw [if_pos (SyntaxCause.message_eq_nested_iff.mp hmessage)] at hcause
    have hiff := hcause.starts_iff hbody hprefix level
    rwa [List.length_map] at hiff

theorem parse_missing_comma :
    ∃ s before token after, tokenize "div(i64(1) i64(2))" = .ok s ∧
      parse "div(i64(1) i64(2))" = .error ⟨11, .expected .comma (.name "i64")⟩ ∧
      s.toList = before ++ token :: after ∧ token.start = 11 ∧
      Viable (before.map Token.lexeme) ∧ ¬ Viable ((before ++ [token]).map Token.lexeme) := by
  obtain ⟨s, hs⟩ : ∃ s, tokenize "div(i64(1) i64(2))" = .ok s := ⟨_, by cbv⟩
  have herror : parse "div(i64(1) i64(2))" = .error ⟨11, .expected .comma (.name "i64")⟩ := by cbv
  obtain ⟨before, token, after, hall, hstart, -, hviable, hwrong, -⟩ :=
    parse_error_at_first_wrong hs herror
  exact ⟨s, before, token, after, hs, herror, hall, hstart, hviable, hwrong (by decide)⟩

end Expr

end Arith64

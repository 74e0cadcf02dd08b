import Mathlib
import Arith64.Proofs.Obstacles
import Arith64.Proofs.Reading

/-!
# Blanks between tokens

Blanks that are put into a text outside its tokens move what is behind them and
change nothing else. The reader never looks at places, except to say where an
error is.
-/

namespace Arith64

/-! ## Places behind an insertion -/

/-- Where a place in a text is after `n` bytes have been put in at byte `p`. -/
def movedPlace (p n place : Nat) : Nat := if place < p then place else place + n

def Token.moved (p n : Nat) (t : Token) : Token :=
  if t.start < p then t else ⟨t.lexeme, t.start + n, t.stop + n⟩

def TokenStream.moved (p n : Nat) (s : TokenStream) : TokenStream :=
  ⟨s.tokens.map (Token.moved p n), movedPlace p n s.stop⟩

def SyntaxError.moved (p n : Nat) (err : SyntaxError) : SyntaxError :=
  { err with offset := movedPlace p n err.offset }

/-- What was read, with its places moved. -/
def movedResult {α : Type} (p n : Nat) (f : α → α) (result : Except SyntaxError α) :
    Except SyntaxError α :=
  (result.map f).mapError (SyntaxError.moved p n)

section Moved

variable {α β : Type} {p n : Nat} {f : α → α} {g : β → β} {t : Token} {s : TokenStream}

@[simp] theorem lexeme_moved : (t.moved p n).lexeme = t.lexeme := by
  unfold Token.moved
  split <;> rfl

@[simp] theorem start_moved : (t.moved p n).start = movedPlace p n t.start := by
  unfold Token.moved movedPlace
  split <;> rfl

@[simp] theorem movedResult_ok {a : α} : movedResult p n f (.ok a) = .ok (f a) := rfl

@[simp] theorem movedResult_error {err : SyntaxError} :
    movedResult p n f (.error err) = .error (err.moved p n) := rfl

theorem movedResult_bind {x : Except SyntaxError α} {k : α → Except SyntaxError β}
    (h : ∀ a, k (f a) = movedResult p n g (k a)) :
    movedResult p n f x >>= k = movedResult p n g (x >>= k) := by
  rcases x with err | a
  · rfl
  · exact h a

/-! ## The reader -/

namespace TokenStream

@[simp] theorem front_moved : (s.moved p n).front = s.front.moved p n := by
  obtain ⟨_ | ⟨t, ts⟩, stop⟩ := s
  · by_cases h : stop < p <;> simp [moved, front, endMark, Token.moved, movedPlace, h]
  · rfl

@[simp] theorem rest_moved : (s.moved p n).rest = s.rest.moved p n := by
  simp [moved, rest]

theorem refuse_moved (cause : Lexeme → SyntaxCause) :
    (s.moved p n).refuse cause = movedResult p n f (s.refuse cause) := by
  simp [refuse, SyntaxError.moved]

theorem expect_moved (wanted : Lexeme) :
    (s.moved p n).expect wanted = movedResult p n (moved p n) (s.expect wanted) := by
  simp only [expect, front_moved, lexeme_moved, rest_moved]
  split
  · rfl
  · exact refuse_moved _

theorem readLiteral_moved : (s.moved p n).readLiteral =
    movedResult p n (Prod.map id (moved p n)) s.readLiteral := by
  unfold readLiteral
  rw [expect_moved]
  apply movedResult_bind
  intro s
  simp only [front_moved, lexeme_moved, rest_moved]
  generalize (s.front.lexeme == .minus) = negative
  have hsign : (if negative then s.rest.moved p n else s.moved p n) =
      (if negative then s.rest else s).moved p n := by
    split <;> rfl
  rw [hsign]
  generalize (if negative then s.rest else s) = s
  simp only [front_moved, lexeme_moved, rest_moved]
  split
  · split
    · rw [expect_moved]
      apply movedResult_bind
      intro s
      rfl
    · exact refuse_moved _
  · exact refuse_moved _

theorem readRight_moved {budget : Nat} {op : BinOp} {l : Expr}
    (ih : ∀ {s}, readExpr budget (s.moved p n) =
      movedResult p n (Prod.map id (moved p n)) (readExpr budget s)) :
    (do
      let (right, s) ← readExpr budget (s.moved p n)
      let s ← s.expect .closeParen
      return (Expr.binary op l right, s)) =
    movedResult p n (Prod.map id (moved p n)) (do
      let (right, s) ← readExpr budget s
      let s ← s.expect .closeParen
      return (Expr.binary op l right, s)) := by
  rw [ih]
  apply movedResult_bind
  rintro ⟨right, s⟩
  simp only [Prod.map, expect_moved]
  apply movedResult_bind
  intro s
  rfl

theorem readExpr_moved (budget : Nat) : readExpr budget (s.moved p n) =
    movedResult p n (Prod.map id (moved p n)) (readExpr budget s) := by
  induction budget generalizing s with
  | zero => exact refuse_moved _
  | succ budget ih =>
    unfold readExpr
    simp only [front_moved, lexeme_moved, rest_moved]
    split
    · rw [ih]
      apply movedResult_bind
      intro operand
      rfl
    · rw [ih]
      apply movedResult_bind
      rintro ⟨left, s⟩
      simp only [Prod.map, front_moved, lexeme_moved, rest_moved]
      split
      · rfl
      · split
        · exact readRight_moved ih
        · exact refuse_moved _
    · split
      · exact readLiteral_moved
      · split
        · rw [expect_moved]
          apply movedResult_bind
          intro s
          rw [ih]
          apply movedResult_bind
          rintro ⟨left, s⟩
          simp only [Prod.map, expect_moved]
          apply movedResult_bind
          intro s
          exact readRight_moved ih
        · exact refuse_moved _
    · exact refuse_moved _

end TokenStream

end Moved

/-! ## The bytes -/

section Bytes

variable {α : Type} {xs ys zs : List α} {i j : Nat}

theorem extract_append_of_le (hj : j ≤ xs.length) : (xs ++ ys).extract i j = xs.extract i j := by
  simp only [List.extract_eq_take_drop]
  by_cases hi : i ≤ xs.length
  · rw [List.drop_append_of_le_length hi, List.take_append_of_le_length]
    rw [List.length_drop]
    omega
  · simp [show j - i = 0 by omega]

theorem extract_append_of_ge (hi : xs.length ≤ i) :
    (xs ++ ys).extract i j = ys.extract (i - xs.length) (j - xs.length) := by
  simp only [List.extract_eq_take_drop]
  rw [List.drop_append, List.drop_eq_nil_of_le hi, List.nil_append]
  congr 1
  omega

theorem getElem?_inserted (hi : xs.length ≤ i) :
    (xs ++ (ys ++ zs))[i + ys.length]? = (xs ++ zs)[i]? := by
  rw [List.getElem?_append_right (by omega), List.getElem?_append_right (by omega),
    List.getElem?_append_right (by omega)]
  congr 1
  omega

theorem extract_inserted (hi : xs.length ≤ i) :
    (xs ++ (ys ++ zs)).extract (i + ys.length) (j + ys.length) = (xs ++ zs).extract i j := by
  rw [extract_append_of_ge (by omega), extract_append_of_ge (by omega), extract_append_of_ge hi]
  congr 1
  · omega
  · omega

theorem mem_inserted {a : α} (h : a ∈ (xs ++ (ys ++ zs))[i]?) :
    i < xs.length ∧ a ∈ (xs ++ zs)[i]? ∨ xs.length ≤ i ∧ i < xs.length + ys.length ∧ a ∈ ys ∨
      ∃ j, xs.length ≤ j ∧ i = j + ys.length ∧ a ∈ (xs ++ zs)[j]? := by
  by_cases hfront : i < xs.length
  · rw [List.getElem?_append_left hfront] at h
    rw [List.getElem?_append_left hfront]
    exact .inl ⟨hfront, h⟩
  · right
    by_cases hblank : i < xs.length + ys.length
    · rw [List.getElem?_append_right (by omega), List.getElem?_append_left (by omega)] at h
      exact .inl ⟨by omega, hblank, List.mem_of_getElem? h⟩
    · obtain ⟨j, rfl⟩ := Nat.exists_eq_add_of_le (by omega : ys.length ≤ i)
      rw [Nat.add_comm, getElem?_inserted (by omega)] at h
      exact .inr ⟨j, by omega, by omega, h⟩

end Bytes

/-! ## The tokens -/

/-- Byte `p` is not inside any of the tokens. -/
def Spare (p : Nat) (tokens : List Token) : Prop := ∀ t ∈ tokens, ¬ (t.start < p ∧ p < t.stop)

variable {front blanks back : List UInt8} {tokens : List Token} {t : Token} {p n i : Nat}
  {b : UInt8} {l : Lexeme}

theorem Spare.cases (n : Nat) (h : Spare p tokens) (ht : t ∈ tokens) :
    t.start < p ∧ t.stop ≤ p ∧ t.moved p n = t ∨
      p ≤ t.start ∧ t.moved p n = ⟨t.lexeme, t.start + n, t.stop + n⟩ := by
  have hspare := h t ht
  unfold Token.moved
  by_cases hstart : t.start < p
  · rw [if_pos hstart]
    exact .inl ⟨hstart, by omega, rfl⟩
  · rw [if_neg hstart]
    exact .inr ⟨by omega, rfl⟩

theorem continues_of_isBlankByte (h : isBlankByte b = true) : l.continues b = false := by
  have hdigit : isDigitByte b = false := by
    by_contra hdigit
    simp [not_isBlankByte (.inl (by simpa using hdigit))] at h
  have hname : isNameStartByte b = false := by
    by_contra hname
    simp [not_isBlankByte (.inr (.inl (by simpa using hname)))] at h
  unfold Lexeme.continues
  split
  · exact hdigit
  · simp_all [isNamePartByte, isNameStartByte]
  · rfl

theorem Placed.insert {stop : Nat} (h : Placed tokens stop) (hspare : Spare p tokens) :
    Placed (tokens.map (Token.moved p n)) (stop + n) := by
  refine ⟨?_, ?_, ?_⟩
  · rw [List.forall_mem_map]
    intro t ht
    have hfilled := h.filled t ht
    rcases hspare.cases n ht with ⟨-, -, hmoved⟩ | ⟨-, hmoved⟩
    · rwa [hmoved]
    · simp [hmoved, hfilled]
  · rw [List.forall_mem_map]
    intro t ht
    have hinside := h.inside t ht
    rcases hspare.cases n ht with ⟨-, -, hmoved⟩ | ⟨-, hmoved⟩
    · rw [hmoved]
      omega
    · simp [hmoved, hinside]
  · rw [List.pairwise_map]
    refine h.ordered.imp_of_mem ?_
    intro t u ht hu hordered
    have hfilled := h.filled t ht
    rcases hspare.cases n ht with ⟨htp, htstop, htmoved⟩ | ⟨htp, htmoved⟩ <;>
      rcases hspare.cases n hu with ⟨hup, hustop, humoved⟩ | ⟨hup, humoved⟩ <;>
      simp only [htmoved, humoved] <;> omega

section Insert

variable (h : LongestMatch (front ++ back) 0 tokens) (hspare : Spare front.length tokens)

include h hspare

theorem LongestMatch.spelled_moved (ht : t ∈ tokens) : Spelled t.lexeme
    ((front ++ (blanks ++ back)).extract (t.moved front.length blanks.length).start
      (t.moved front.length blanks.length).stop) := by
  have hspelled := h.spelled t ht
  rcases hspare.cases blanks.length ht with ⟨-, hstop, hmoved⟩ | ⟨hstart, hmoved⟩
  · rw [extract_append_of_le hstop] at hspelled
    rwa [hmoved, extract_append_of_le hstop]
  · rwa [hmoved, extract_inserted hstart]

variable (hblank : ∀ b ∈ blanks, isBlankByte b = true)

include hblank

theorem LongestMatch.longest_moved (ht : t ∈ tokens)
    (hb : b ∈ (front ++ (blanks ++ back))[(t.moved front.length blanks.length).stop]?) :
    t.lexeme.continues b = false := by
  have hfilled := h.placed.filled t ht
  have hlongest := h.longest t ht b
  rcases mem_inserted hb with ⟨hi, hold⟩ | ⟨-, -, hnew⟩ | ⟨j, hj, hi, hold⟩
  · rcases hspare.cases blanks.length ht with ⟨-, -, hmoved⟩ | ⟨hstart, hmoved⟩
    · rw [hmoved] at hold
      exact hlongest hold
    · simp only [hmoved] at hi
      omega
  · exact continues_of_isBlankByte (hblank b hnew)
  · have hstop : j = t.stop := by
      rcases hspare.cases blanks.length ht with ⟨-, hstop, hmoved⟩ | ⟨-, hmoved⟩ <;>
        simp only [hmoved] at hi <;> omega
    rw [hstop] at hold
    exact hlongest hold

theorem LongestMatch.blank_moved
    (hcovers : ∀ t ∈ tokens, ¬ (t.moved front.length blanks.length).Covers i)
    (hb : b ∈ (front ++ (blanks ++ back))[i]?) : isBlankByte b = true := by
  rcases mem_inserted hb with ⟨hi, hold⟩ | ⟨-, -, hnew⟩ | ⟨j, hj, rfl, hold⟩
  · refine h.blank i (Nat.zero_le i) ?_ b hold
    rintro t ht ⟨hstart, hstop⟩
    apply hcovers t ht
    rcases hspare.cases blanks.length ht with ⟨-, -, hmoved⟩ | ⟨hstart', -⟩
    · rw [hmoved]
      exact ⟨hstart, hstop⟩
    · omega
  · exact hblank b hnew
  · refine h.blank j (Nat.zero_le j) ?_ b hold
    rintro t ht ⟨hstart, hstop⟩
    apply hcovers t ht
    rcases hspare.cases blanks.length ht with ⟨-, hstop', -⟩ | ⟨-, hmoved⟩
    · omega
    · rw [hmoved]
      exact ⟨by simpa using hstart, by simpa using hstop⟩

theorem LongestMatch.insert : LongestMatch (front ++ (blanks ++ back)) 0
    (tokens.map (Token.moved front.length blanks.length)) := by
  have hlength : (front ++ (blanks ++ back)).length = (front ++ back).length + blanks.length := by
    simp only [List.length_append]
    omega
  refine ⟨?_, by simp, ?_, ?_, ?_⟩
  · rw [hlength]
    exact h.placed.insert hspare
  · rw [List.forall_mem_map]
    intro t ht
    rw [lexeme_moved]
    exact h.spelled_moved hspare ht
  · rw [List.forall_mem_map]
    intro t ht b hb
    rw [lexeme_moved]
    exact h.longest_moved hspare hblank ht hb
  · intro i _ hcovers b hb
    rw [List.forall_mem_map] at hcovers
    exact h.blank_moved hspare hblank hcovers hb

end Insert

/-! ## Whole texts -/

theorem exists_cut {text : String} {s : TokenStream} (hs : tokenize text = .ok s)
    (hp : p ≤ text.utf8ByteSize) :
    ∃ before after, before ++ after = text ∧ before.utf8ByteSize = p := by
  -- every character of a text with tokens is a single byte
  have hlegible := (clear_of_tokenize hs).legible
  have hsize : text.toList.length = text.utf8ByteSize := by
    rw [← length_encode_of_legible hlegible, ← utf8_eq_encode, length_utf8]
  refine ⟨String.ofList (text.toList.take p), String.ofList (text.toList.drop p), ?_, ?_⟩
  · rw [← String.ofList_append, List.take_append_drop, String.ofList_toList]
  · rw [← length_utf8, utf8_ofList, length_encode_of_legible, List.length_take, hsize]
    · omega
    · intro c hc
      exact hlegible c (List.mem_of_mem_take hc)

theorem tokenize_insert {before after blanks : String} {s : TokenStream}
    (hs : tokenize (before ++ after) = .ok s) (hspare : Spare before.utf8ByteSize s.tokens)
    (hblank : ∀ c ∈ blanks.toList, isBlank c = true) :
    tokenize (before ++ blanks ++ after) =
      .ok (s.moved before.utf8ByteSize blanks.utf8ByteSize) := by
  obtain ⟨tokens, rfl, hmatch⟩ := tokenize_eq_ok_iff.mp hs
  have hbytes : ∀ b ∈ utf8 blanks, isBlankByte b = true := by
    rw [utf8_eq_encode]
    exact sameCodes_blank.all_encode hblank
  rw [utf8_append] at hmatch
  rw [← length_utf8] at hspare
  refine tokenize_eq_ok_iff.mpr
    ⟨tokens.map (Token.moved before.utf8ByteSize blanks.utf8ByteSize), ?_, ?_⟩
  · simp only [TokenStream.moved, movedPlace, String.utf8ByteSize_append, TokenStream.mk.injEq,
      true_and]
    rw [if_neg (by omega)]
    omega
  · rw [String.append_assoc, utf8_append, utf8_append, ← length_utf8, ← length_utf8]
    exact hmatch.insert hspare hbytes

theorem parse_moved {text text' : String} {s : TokenStream} (hs : tokenize text = .ok s)
    (hs' : tokenize text' = .ok (s.moved p n)) :
    Expr.parse text' = (Expr.parse text).mapError (SyntaxError.moved p n) := by
  have hmoved : Expr.parse text' = movedResult p n id (Expr.parse text) := by
    rw [Expr.parse, Expr.parse, hs, hs', ok_bind, ok_bind, TokenStream.readExpr_moved]
    apply movedResult_bind
    rintro ⟨e, s⟩
    simp only [Prod.map, TokenStream.expect_moved]
    apply movedResult_bind
    intro s
    rfl
  rw [hmoved, movedResult]
  cases Expr.parse text <;> rfl

/-- Blanks that are put into a text outside its tokens leave what is read as it is, and the error
if there is one, which moves with the text behind them. -/
theorem parse_insert_blanks {text blanks : String} {s : TokenStream} {p : Nat}
    (hs : tokenize text = .ok s) (hp : p ≤ text.utf8ByteSize)
    (hspare : ∀ t ∈ s.tokens, ¬ (t.start < p ∧ p < t.stop))
    (hblank : ∀ c ∈ blanks.toList, isBlank c = true) :
    ∃ before after, before ++ after = text ∧ before.utf8ByteSize = p ∧
      Expr.parse (before ++ blanks ++ after) = (Expr.parse text).mapError fun err =>
        { err with
          offset := if err.offset < p then err.offset else err.offset + blanks.utf8ByteSize } := by
  obtain ⟨before, after, rfl, rfl⟩ := exists_cut hs hp
  exact ⟨before, after, rfl, rfl, parse_moved hs (tokenize_insert hs hspare hblank)⟩

theorem parse_insert_blanks_in_front_of_error :
    ∃ before after, before ++ after = "(i64(7)i64(1))" ∧ before.utf8ByteSize = 7 ∧
      Expr.parse (before ++ " \n\t" ++ after) = .error ⟨10, .expectedInfix (.name "i64")⟩ := by
  have hparse : Expr.parse "(i64(7)i64(1))" = .error ⟨7, .expectedInfix (.name "i64")⟩ := by cbv
  obtain ⟨s, hs, hspare⟩ : ∃ s, tokenize "(i64(7)i64(1))" = .ok s ∧
      ∀ t ∈ s.tokens, ¬ (t.start < 7 ∧ 7 < t.stop) := by
    refine ⟨_, by cbv, ?_⟩
    decide
  have hblank : ∀ c ∈ " \n\t".toList, isBlank c = true := by simp [isBlank]
  obtain ⟨before, after, htext, hbefore, hmoved⟩ :=
    parse_insert_blanks hs (by decide) hspare hblank
  refine ⟨before, after, htext, hbefore, ?_⟩
  rw [hmoved, hparse]
  rfl

end Arith64

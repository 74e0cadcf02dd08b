import Mathlib.Data.List.Chain
import Arith64.Proofs.Decimal
import Arith64.Proofs.JsonText

/-!
# Tokens of a JSON text

However a token is written, it is read as the token that it is, or refused if
no setting can hold it. A number ends where no character can go on with it,
and in a document nothing but a mark or space comes behind one.
-/

namespace Arith64.Json

/-! ## Strings that are read -/

theorem hexValue?_of_isHexDigit {n : Nat} {c : Char} (h : IsHexDigit n c) :
    hexValue? c = some n := by
  have hall : ∀ n < 16, hexValue? (Nat.digitChar n) = some n ∧
      hexValue? (Nat.digitChar n).toUpper = some n := by decide
  obtain ⟨hn, rfl | rfl⟩ := h
  · exact (hall n hn).1
  · exact (hall n hn).2

theorem exists_codeUnit {n : Nat} {unit : List Char} (h : IsCodeUnit n unit) :
    ∃ a b c d, unit = [a, b, c, d] ∧ codeUnit? a b c d = some n := by
  obtain ⟨ha, hb, hc, hd⟩ := h
  refine ⟨_, _, _, _, rfl, ?_⟩
  simp only [codeUnit?, hexValue?_of_isHexDigit ha, hexValue?_of_isHexDigit hb,
    hexValue?_of_isHexDigit hc, hexValue?_of_isHexDigit hd]
  refine congrArg some ?_
  omega

theorem toNat_lt (c : Char) : c.toNat < 0x110000 := by
  rcases c.valid with hvalid | hvalid
  · exact Nat.lt_trans hvalid (by decide)
  · exact hvalid.2

/-- The first half of a pair is no character, and both halves come to one beyond the plane. -/
theorem surrogates_of_le {c : Char} (h : 0x10000 ≤ c.toNat) :
    ¬(0xD800 + (c.toNat - 0x10000) / 0x400).isValidChar ∧
      pairedCharacter? (0xD800 + (c.toNat - 0x10000) / 0x400)
        (0xDC00 + (c.toNat - 0x10000) % 0x400) = some c := by
  have hlt := toNat_lt c
  have hcode : 0x10000 + (0xD800 + (c.toNat - 0x10000) / 0x400 - 0xD800) * 0x400 +
      (0xDC00 + (c.toNat - 0x10000) % 0x400 - 0xDC00) = c.toNat := by omega
  constructor
  · simp only [Nat.isValidChar]
    omega
  · rw [pairedCharacter?, if_pos (by omega), hcode, Char.ofNat_toNat]

section ReadText

variable {c : Char} {cs done : List Char}

theorem readText_plain (hspace : ' ' ≤ c) (hquote : c ≠ '"') (hslash : c ≠ '\\') :
    readText done (c :: cs) = readText (c :: done) cs := by
  rw [readText, if_neg (Char.not_lt.mpr hspace)]
  · exact hquote
  · intro _ _ _ _ _ hc
    exact absurd hc hslash
  · intro _ _ hc
    exact absurd hc hslash

theorem readText_short {e : Char} (h : (c, e) ∈ shortEscapes) :
    readText done ('\\' :: e :: cs) = readText (c :: done) cs := by
  have hall : ∀ p ∈ shortEscapes, escaped? p.2 = some p.1 ∧ p.2 ≠ 'u' := by decide
  obtain ⟨hescaped, hne⟩ := hall _ h
  rw [readText, hescaped]
  intro _ _ _ _ _ he
  exact absurd he hne

theorem readText_unit {unit : List Char} (h : IsCodeUnit c.toNat unit) :
    readText done ('\\' :: 'u' :: unit ++ cs) = readText (c :: done) cs := by
  have hvalid : c.toNat.isValidChar := c.valid
  obtain ⟨a, b, d, e, rfl, hcode⟩ := exists_codeUnit h
  simp only [List.cons_append, List.nil_append]
  rw [readText, hcode]
  dsimp only
  rw [if_pos hvalid, Char.ofNat_toNat]

theorem readText_pair {m n : Nat} {high low : List Char} (hm : ¬m.isValidChar)
    (hc : pairedCharacter? m n = some c) (hhigh : IsCodeUnit m high) (hlow : IsCodeUnit n low) :
    readText done ('\\' :: 'u' :: high ++ '\\' :: 'u' :: low ++ cs) = readText (c :: done) cs := by
  obtain ⟨a, b, d, e, rfl, hcode⟩ := exists_codeUnit hhigh
  obtain ⟨a', b', d', e', rfl, hcode'⟩ := exists_codeUnit hlow
  simp only [List.cons_append, List.nil_append]
  rw [readText, hcode]
  dsimp only
  rw [if_neg hm]
  simp only [hcode', Option.bind_some, hc]

end ReadText

theorem readText_of_quoted {cs body done rest : List Char} (h : Quoted cs body) :
    readText done (body ++ '"' :: rest) = some (String.ofList (done.reverse ++ cs), rest) := by
  induction h generalizing done with
  | nil => simp [readText]
  | plain hspace hquote hslash h ih =>
    rw [List.cons_append, readText_plain hspace hquote hslash, ih]
    simp
  | short hc h ih =>
    rw [List.cons_append, List.cons_append, readText_short hc, ih]
    simp
  | unit hunit h ih =>
    rw [List.append_assoc, readText_unit hunit, ih]
    simp
  | pair hc hhigh hlow h ih =>
    obtain ⟨hhalf, hpair⟩ := surrogates_of_le hc
    rw [List.append_assoc, readText_pair hhalf hpair hhigh hlow, ih]
    simp

/-! ## Numbers that are read -/

theorem head?_decimal_eq_zero {n : Nat} (h : (decimal n).toList.head? = some '0') : n = 0 := by
  rw [decimal, String.toList_ofList] at h
  induction n using Nat.strongRecOn with
  | ind n ih =>
    by_cases hn : n < 10
    · rw [Nat.toDigits_of_lt_base hn] at h
      simpa using h
    · have hrest := Nat.toDigits_of_base_le (b := 10) (by decide) (Nat.le_of_not_lt hn)
      rw [hrest, List.head?_append_of_ne_nil _ Nat.toDigits_ne_nil] at h
      have := ih (n / 10) (by omega) h
      omega

/-- A text that a number in front of it does not run into. -/
def EndsNumber (text : List Char) : Prop :=
  ∀ c ∈ text.head?, c.isDigit = false ∧ c ≠ '.' ∧ c ≠ 'e' ∧ c ≠ 'E'

theorem leadingZero_decimal (n : Nat) :
    ((decimal n).toList.head? == some '0' && decide ((decimal n).toList.length ≠ 1)) = false := by
  by_cases h : (decimal n).toList.head? = some '0'
  · rw [head?_decimal_eq_zero h]
    decide
  · simp [h]

theorem natural?_goes_on {n : Nat} {c : Char} {text : List Char} (h : c ∈ ['.', 'e', 'E']) :
    natural? (decimal n).toList (c :: text) = none := by
  have hmark : (c == '.' || c == 'e' || c == 'E') = true := by simpa [or_assoc] using h
  rw [natural?, leadingZero_decimal]
  simp [hmark]

theorem natural?_ends {n : Nat} {text : List Char} (h : EndsNumber text) :
    natural? (decimal n).toList text = some n := by
  rw [natural?, leadingZero_decimal, digitsValue_decimal]
  cases text with
  | nil => rfl
  | cons c text =>
    obtain ⟨-, hpoint, hsmall, hcapital⟩ := h c rfl
    simp [hpoint, hsmall, hcapital]

theorem natural?_tail {n : Numeral} {text : List Char} (hn : n.negative = false)
    (h : EndsNumber text) :
    StopsRun Char.isDigit (n.tail ++ text) ∧
      natural? (decimal n.whole).toList (n.tail ++ text) = n.natural? := by
  obtain ⟨negative, whole, fraction, exponent⟩ := n
  cases hn
  cases fraction with
  | some f => exact ⟨stopsRun_cons rfl, natural?_goes_on (by decide)⟩
  | none =>
    cases exponent with
    | some e =>
      obtain ⟨_ | _, sign, power⟩ := e
      · exact ⟨stopsRun_cons rfl, natural?_goes_on (c := 'e') (by decide)⟩
      · exact ⟨stopsRun_cons rfl, natural?_goes_on (c := 'E') (by decide)⟩
    | none => exact ⟨fun c hc => (h c hc).1, natural?_ends h⟩

theorem Numeral.natural?_of_negative {n : Numeral} (h : n.negative = true) :
    n.natural? = none := by
  obtain ⟨negative, whole, fraction, exponent⟩ := n
  cases h
  rfl

theorem Numeral.tail_of_natural? {n : Numeral} {m : Nat} (h : n.natural? = some m) :
    n.tail = [] := by
  unfold natural? at h
  split at h
  · rfl
  · cases h

/-! ## Tokens that are read -/

def Mark.token : Mark → Token
  | openBrace => .openBrace
  | closeBrace => .closeBrace
  | openBracket => .openBracket
  | closeBracket => .closeBracket
  | colon => .colon
  | comma => .comma

/-- The token that a piece is read as, if it can be part of settings. -/
def Piece.token? : Piece → Option Token
  | mark m => some m.token
  | null => some .null
  | boolean _ => none
  | number n => n.natural?.map .natural
  | text value => some (.text value)

/-- The tokens that some pieces are read as, if all of them can be part of settings. -/
def pieceTokens? : List Piece → Option (List Token)
  | [] => some []
  | p :: ps => p.token?.bind fun token => (pieceTokens? ps).map (token :: ·)

theorem pieceTokens?_append (ps qs : List Piece) : pieceTokens? (ps ++ qs) =
    (pieceTokens? ps).bind fun tokens => (pieceTokens? qs).map (tokens ++ ·) := by
  induction ps with
  | nil => simp [pieceTokens?]
  | cons p ps ih =>
    rw [List.cons_append, pieceTokens?, pieceTokens?, ih]
    cases p.token? <;> cases pieceTokens? ps <;> cases pieceTokens? qs <;> rfl

theorem isSpace_of_isDigit {c : Char} (h : c.isDigit = true) : isSpace c = false := by
  by_contra hspace
  simp only [isSpace, Bool.not_eq_false, Bool.or_eq_true, beq_iff_eq] at hspace
  rcases hspace with ((rfl | rfl) | rfl) | rfl <;> cases h

theorem tokensFrom_blank {done : Array Token} {blank text : List Char} (h : IsBlank blank) :
    tokensFrom done (blank ++ text) = tokensFrom done text := by
  induction blank with
  | nil => rfl
  | cons c blank ih =>
    obtain ⟨hc, hblank⟩ := List.forall_mem_cons.mp h
    have hspace : ∀ c ∈ [' ', '\t', '\n', '\r'], isSpace c = true := by simp [isSpace]
    rw [List.cons_append, tokensFrom, if_pos (hspace c hc), ih hblank]

theorem tokensFrom_piece {done : Array Token} {p : Piece} {spelling text : List Char}
    (hp : p.Spells spelling) (hend : ∀ n, p = .number n → EndsNumber text) :
    tokensFrom done (spelling ++ text) =
      p.token?.bind fun token => tokensFrom (done.push token) text := by
  cases hp with
  | mark m =>
    rw [List.singleton_append, tokensFrom]
    cases m <;> rfl
  | null =>
    have hnull : "null".toList ++ text = 'n' :: ('u' :: 'l' :: 'l' :: text) := rfl
    rw [hnull, tokensFrom]
    rfl
  | boolean value =>
    cases value
    · have hfalse : "false".toList ++ text = 'f' :: ('a' :: 'l' :: 's' :: 'e' :: text) := rfl
      rw [if_neg (by decide), hfalse, tokensFrom]
      rfl
    · have htrue : "true".toList ++ text = 't' :: ('r' :: 'u' :: 'e' :: text) := rfl
      rw [if_pos rfl, htrue, tokensFrom]
      rfl
  | number n =>
    rw [Numeral.chars]
    cases hn : n.negative with
    | true =>
      rw [if_pos rfl, List.append_assoc, List.singleton_append, tokensFrom, Piece.token?,
        Numeral.natural?_of_negative hn]
      rfl
    | false =>
      obtain ⟨hstop, hvalue⟩ := natural?_tail hn (hend n rfl)
      obtain ⟨c, cs, hdecimal, hc, hcs⟩ := decimal_toList_eq_cons n.whole
      have hspace := isSpace_of_isDigit hc
      rw [hdecimal] at hvalue
      rw [if_neg (by decide), List.nil_append, List.append_assoc, hdecimal, List.cons_append,
        tokensFrom, if_neg (by simp [hspace]), if_pos hc]
      simp only [takeWhile_run hcs hstop, dropWhile_run hcs hstop, hvalue, Piece.token?]
      cases hnatural : n.natural? with
      | none => rfl
      | some m =>
        rw [Numeral.tail_of_natural? hnatural]
        rfl
  | @text value body h =>
    have hread : readText [] (body ++ '"' :: text) = some (value, text) := by
      rw [readText_of_quoted h]
      simp
    have htext : '"' :: body ++ ['"'] ++ text = '"' :: (body ++ '"' :: text) := by simp
    rw [htext, tokensFrom, if_neg (by decide), if_neg (by decide), if_pos rfl]
    split
    · rename_i hsome
      rw [hread] at hsome
      cases hsome
      rfl
    · rename_i hnone
      rw [hread] at hnone
      cases hnone

/-- Whether a piece keeps a number in front of it from running on. -/
def Piece.IsMark (p : Piece) : Prop := ∃ m, p = .mark m

/-- No number has anything but a mark behind it. -/
def Separated : List Piece → Prop := List.IsChain fun p q => (∃ n, p = .number n) → q.IsMark

theorem endsNumber_of_written {n : Numeral} {ps : List Piece} {text : List Char}
    (hps : Separated (.number n :: ps)) (h : Written ps text) : EndsNumber text := by
  have hblank : ∀ c ∈ [' ', '\t', '\n', '\r'], c.isDigit = false ∧ c ≠ '.' ∧ c ≠ 'e' ∧ c ≠ 'E' := by
    simp
  cases h with
  | nil h => exact fun c hc => hblank c (h c (List.mem_of_head? hc))
  | @cons p ps blank spelling text h hp htext =>
    obtain ⟨m, rfl⟩ := (List.isChain_cons_cons.mp hps).1 ⟨n, rfl⟩
    cases hp
    intro c hc
    cases blank with
    | nil =>
      cases hc
      cases m <;> decide
    | cons b blank =>
      cases hc
      exact hblank _ (h _ List.mem_cons_self)

theorem tokensFrom_written {done : Array Token} {ps : List Piece} {text : List Char}
    (hps : Separated ps) (h : Written ps text) :
    tokensFrom done text = (pieceTokens? ps).map (done.toList ++ ·) := by
  induction h generalizing done with
  | @nil blank hblank =>
    rw [← List.append_nil blank, tokensFrom_blank hblank, tokensFrom]
    simp [pieceTokens?]
  | @cons p ps blank spelling text hblank hp h ih =>
    have hend : ∀ n, p = .number n → EndsNumber text := by
      rintro n rfl
      exact endsNumber_of_written hps h
    rw [List.append_assoc, tokensFrom_blank hblank, tokensFrom_piece hp hend, pieceTokens?]
    cases p.token? with
    | none => rfl
    | some token =>
      rw [Option.bind_some, ih hps.tail, Option.bind_some]
      cases pieceTokens? ps with
      | none => rfl
      | some tokens => simp

end Arith64.Json

import Mathlib
import Arith64.Proofs.Places
import Arith64.Proofs.Utf8

/-!
# The longest pieces of a text

The tokens of a text are told from its bytes alone: each is a lexeme, none of
them could go on, and only blanks are left over. The scanner gives these tokens
and no others, and it gives them whenever there are any.
-/

namespace Arith64

/-! ## Classes of bytes -/

def isBlankByte (b : UInt8) : Bool :=
  b == 0x20 || b == 0x09 || b == 0x0a || b == 0x0d || b == 0x0c

def isDigitByte (b : UInt8) : Bool := 0x30 ≤ b && b ≤ 0x39

def isLetterByte (b : UInt8) : Bool := (0x41 ≤ b && b ≤ 0x5a) || (0x61 ≤ b && b ≤ 0x7a)

/-- Whether a name can start with a byte: letters and the underscore. -/
def isNameStartByte (b : UInt8) : Bool := isLetterByte b || b == 0x5f

def isNamePartByte (b : UInt8) : Bool := isLetterByte b || isDigitByte b || b == 0x5f

def Lexeme.ofByte? (b : UInt8) : Option Lexeme :=
  if b = 0x28 then some openParen
  else if b = 0x29 then some closeParen
  else if b = 0x2c then some comma
  else if b = 0x2b then some plus
  else if b = 0x2d then some minus
  else if b = 0x2a then some star
  else none

theorem sameCodes_blank : SameCodes false isBlank isBlankByte := by
  refine ⟨by decide, ?_, ?_⟩
  · intro c hc
    simp only [isBlank, Bool.or_eq_false_iff, beq_eq_false_iff_ne]
    refine ⟨⟨⟨⟨?_, ?_⟩, ?_⟩, ?_⟩, ?_⟩ <;> rintro rfl <;> revert hc <;> decide
  · intro b hb
    simp only [isBlankByte, Bool.or_eq_false_iff, beq_eq_false_iff_ne]
    refine ⟨⟨⟨⟨?_, ?_⟩, ?_⟩, ?_⟩, ?_⟩ <;> rintro rfl <;> revert hb <;> decide

theorem sameCodes_digit : SameCodes false Char.isDigit isDigitByte := by
  refine ⟨by decide, ?_, ?_⟩
  · intro c hc
    rw [← Bool.not_eq_true, Char.isDigit_iff_toNat]
    rintro ⟨-, h⟩
    exact absurd (Nat.le_trans hc h) (by decide)
  · intro b hb
    simp only [isDigitByte, Bool.and_eq_false_iff, decide_eq_false_iff_not, UInt8.le_iff_toNat_le]
    exact .inr fun h => absurd (Nat.le_trans hb h) (by decide)

theorem sameCodes_letter : SameCodes false Char.isAlpha isLetterByte := by
  refine ⟨by decide, ?_, ?_⟩
  · intro c hc
    simp only [Char.isAlpha, Char.isUpper, Char.isLower, Bool.or_eq_false_iff,
      Bool.and_eq_false_iff, decide_eq_false_iff_not, UInt32.le_iff_toNat_le]
    exact ⟨fun h => absurd (Nat.le_trans hc h.2) (by decide),
      .inr fun h => absurd (Nat.le_trans hc h) (by decide)⟩
  · intro b hb
    simp only [isLetterByte, Bool.or_eq_false_iff, Bool.and_eq_false_iff, decide_eq_false_iff_not,
      UInt8.le_iff_toNat_le]
    exact ⟨.inr fun h => absurd (Nat.le_trans hb h) (by decide),
      .inr fun h => absurd (Nat.le_trans hb h) (by decide)⟩

theorem sameCodes_underscore : SameCodes false (· == '_') (· == 0x5f) := by
  refine ⟨by decide, ?_, ?_⟩
  · intro c hc
    rw [beq_eq_false_iff_ne]
    rintro rfl
    exact absurd hc (by decide)
  · intro b hb
    rw [beq_eq_false_iff_ne]
    rintro rfl
    exact absurd hb (by decide)

theorem sameCodes_nameStart : SameCodes false isNameStart isNameStartByte :=
  sameCodes_letter.or sameCodes_underscore

theorem sameCodes_namePart : SameCodes false isNamePart isNamePartByte :=
  (sameCodes_letter.or sameCodes_digit).or sameCodes_underscore

theorem sameCodes_mark : SameCodes none Lexeme.ofMark? Lexeme.ofByte? := by
  refine ⟨by decide, ?_, ?_⟩
  · intro c hc
    unfold Lexeme.ofMark?
    split
    all_goals first | rfl | exact absurd hc (by decide)
  · intro b hb
    unfold Lexeme.ofByte?
    repeat rw [if_neg (by rintro rfl; revert hb; decide)]

/-! ## What the bytes of a token spell -/

/-- The number that some digits stand for. -/
def bytesValue (digits : List UInt8) : Nat :=
  digits.foldl (fun n b => 10 * n + (b.toNat - 0x30)) 0

/-- Bytes that are a lexeme: a number of 64 bits, a name, or a mark. -/
inductive Spelled : Lexeme → List UInt8 → Prop where
  | integer {digits : List UInt8} : digits ≠ [] → (∀ b ∈ digits, isDigitByte b = true) →
      bytesValue digits < 2 ^ 64 → Spelled (.integer (bytesValue digits)) digits
  | name {text : String} {b : UInt8} {bs : List UInt8} : utf8 text = b :: bs →
      isNameStartByte b = true → (∀ d ∈ bs, isNamePartByte d = true) →
      Spelled (.name text) (b :: bs)
  | mark {l : Lexeme} {b : UInt8} : Lexeme.ofByte? b = some l → Spelled l [b]

/-- Whether a lexeme in front of a byte could go on with it. -/
def Lexeme.continues : Lexeme → UInt8 → Bool
  | .integer _, b => isDigitByte b
  | .name _, b => isNamePartByte b
  | _, _ => false

def Token.Covers (t : Token) (i : Nat) : Prop := t.start ≤ i ∧ i < t.stop

/-- Tokens of the bytes from `pos` on, none of which could be longer, with only blanks between. -/
structure LongestMatch (bytes : List UInt8) (pos : Nat) (tokens : List Token) : Prop where
  placed : Placed tokens bytes.length
  behind : ∀ t ∈ tokens, pos ≤ t.start
  spelled : ∀ t ∈ tokens, Spelled t.lexeme (bytes.extract t.start t.stop)
  longest : ∀ t ∈ tokens, ∀ b ∈ bytes[t.stop]?, t.lexeme.continues b = false
  blank : ∀ i, pos ≤ i → (∀ t ∈ tokens, ¬ t.Covers i) → ∀ b ∈ bytes[i]?, isBlankByte b = true

/-! ## One token -/

/-- The token is a longest lexeme at the front of `rest`, which stands at byte `pos`. -/
def Token.Heads (t : Token) (pos : Nat) (rest : List UInt8) : Prop :=
  t.start = pos ∧ ∃ run tail, rest = run ++ tail ∧ t.stop = pos + run.length ∧
    Spelled t.lexeme run ∧ ∀ b ∈ tail.head?, t.lexeme.continues b = false

variable {bytes rest run tail : List UInt8} {pos : Nat} {t : Token} {tokens : List Token}
  {b : UInt8} {l : Lexeme}

theorem not_isBlankByte
    (h : isDigitByte b = true ∨ isNameStartByte b = true ∨ Lexeme.ofByte? b ≠ none) :
    isBlankByte b = false := by
  by_contra hblank
  simp only [isBlankByte, Bool.not_eq_false, Bool.or_eq_true, beq_iff_eq] at hblank
  rcases hblank with (((rfl | rfl) | rfl) | rfl) | rfl <;> revert h <;> decide

theorem Spelled.first (h : Spelled l run) : ∃ b bs, run = b :: bs ∧ isBlankByte b = false := by
  cases h with
  | integer hne hall _ =>
    obtain ⟨b, bs, rfl⟩ := List.exists_cons_of_ne_nil hne
    exact ⟨b, bs, rfl, not_isBlankByte (.inl (hall b List.mem_cons_self))⟩
  | name _ hb _ => exact ⟨_, _, rfl, not_isBlankByte (.inr (.inl hb))⟩
  | mark hb => exact ⟨_, _, rfl, not_isBlankByte (.inr (.inr (by simp [hb])))⟩

theorem heads_iff (hpos : t.start ≤ bytes.length) : t.Heads t.start (bytes.drop t.start) ↔
    t.start < t.stop ∧ t.stop ≤ bytes.length ∧ Spelled t.lexeme (bytes.extract t.start t.stop) ∧
      ∀ b ∈ bytes[t.stop]?, t.lexeme.continues b = false := by
  rw [List.extract_eq_take_drop, ← List.head?_drop]
  constructor
  · rintro ⟨-, run, tail, hrest, hstop, hspelled, hlongest⟩
    obtain ⟨b, bs, rfl, -⟩ := hspelled.first
    have hlength := congrArg List.length hrest
    have htail : bytes.drop t.stop = tail := by
      rw [hstop, ← List.drop_drop, hrest, List.drop_left]
    rw [List.length_drop, List.length_append] at hlength
    rw [hrest, htail, hstop, Nat.add_sub_cancel_left, List.take_left]
    rw [List.length_cons] at *
    exact ⟨by omega, by omega, hspelled, hlongest⟩
  · rintro ⟨hfilled, hinside, hspelled, hlongest⟩
    refine ⟨rfl, _, _, (List.take_append_drop (t.stop - t.start) _).symm, ?_, hspelled, ?_⟩
    · rw [List.length_take, List.length_drop]
      omega
    · rwa [List.drop_drop, Nat.add_sub_cancel' hfilled.le]

/-! ## Step by step -/

theorem LongestMatch.first (h : LongestMatch bytes pos tokens) (ht : t ∈ tokens) :
    ∃ b, bytes[t.start]? = some b ∧ isBlankByte b = false := by
  obtain ⟨b, bs, hrun, hblank⟩ := (h.spelled t ht).first
  have hfilled := h.placed.filled t ht
  refine ⟨b, ?_, hblank⟩
  have hhead := congrArg List.head? hrun
  rwa [List.extract_eq_take_drop, List.head?_take, if_neg (by omega), List.head?_drop] at hhead

theorem longestMatch_end : LongestMatch bytes bytes.length tokens ↔ tokens = [] := by
  constructor
  · intro h
    apply List.eq_nil_iff_forall_not_mem.mpr
    intro t ht
    have hbehind := h.behind t ht
    have hfilled := h.placed.filled t ht
    have hinside := h.placed.inside t ht
    omega
  · rintro rfl
    refine ⟨⟨by simp, by simp, by simp⟩, by simp, by simp, by simp, ?_⟩
    intro i hi _ b hb
    rw [List.getElem?_eq_none hi] at hb
    cases hb

theorem longestMatch_blank (hb : bytes[pos]? = some b) (hblank : isBlankByte b = true) :
    LongestMatch bytes pos tokens ↔ LongestMatch bytes (pos + 1) tokens := by
  constructor
  · intro h
    refine ⟨h.placed, ?_, h.spelled, h.longest, fun i hi => h.blank i (by omega)⟩
    intro t ht
    apply Nat.lt_of_le_of_ne (h.behind t ht)
    rintro rfl
    obtain ⟨b', hb', hfirst⟩ := h.first ht
    rw [hb] at hb'
    cases hb'
    rw [hblank] at hfirst
    cases hfirst
  · intro h
    refine ⟨h.placed, fun t ht => by have := h.behind t ht; omega, h.spelled, h.longest, ?_⟩
    intro i hi hcovers b' hb'
    by_cases hat : i = pos
    · rw [hat, hb] at hb'
      cases hb'
      exact hblank
    · exact h.blank i (by omega) hcovers b' hb'

theorem longestMatch_token (hb : bytes[pos]? = some b) (hblank : isBlankByte b = false) :
    LongestMatch bytes pos tokens ↔
      ∃ t ts, tokens = t :: ts ∧ t.Heads pos (bytes.drop pos) ∧ LongestMatch bytes t.stop ts := by
  have hpos : pos ≤ bytes.length := (List.getElem?_eq_some_iff.mp hb).1.le
  constructor
  · intro h
    have hcovered : ∃ t ∈ tokens, t.Covers pos := by
      by_contra hnone
      push Not at hnone
      rw [h.blank pos (Nat.le_refl pos) hnone b hb] at hblank
      cases hblank
    obtain ⟨u, hu, hstart, hstop⟩ := hcovered
    cases tokens with
    | nil => cases hu
    | cons t ts =>
      obtain ⟨hfilled, hinside, hordered, hplaced⟩ := placed_cons.mp h.placed
      have hbehind := h.behind t List.mem_cons_self
      -- Only the first token can cover the byte, all others start behind its end.
      have hat : t.start = pos := by
        rcases List.mem_cons.mp hu with rfl | hu
        · omega
        · have := hordered u hu
          omega
      subst hat
      refine ⟨t, ts, rfl, (heads_iff hpos).mpr ⟨hfilled, hinside, h.spelled t List.mem_cons_self,
        h.longest t List.mem_cons_self⟩, hplaced, hordered, ?_, ?_, ?_⟩
      · exact fun v hv => h.spelled v (List.mem_cons_of_mem t hv)
      · exact fun v hv => h.longest v (List.mem_cons_of_mem t hv)
      · intro i hi hcovers
        refine h.blank i (by omega) (List.forall_mem_cons.mpr ⟨?_, hcovers⟩)
        exact fun hcover => Nat.lt_irrefl i (Nat.lt_of_lt_of_le hcover.2 hi)
  · rintro ⟨t, ts, rfl, hheads, h⟩
    obtain rfl := hheads.1
    obtain ⟨hfilled, hinside, hspelled, hlongest⟩ := (heads_iff hpos).mp hheads
    refine ⟨placed_cons.mpr ⟨hfilled, hinside, h.behind, h.placed⟩, ?_,
      List.forall_mem_cons.mpr ⟨hspelled, h.spelled⟩,
      List.forall_mem_cons.mpr ⟨hlongest, h.longest⟩, ?_⟩
    · refine List.forall_mem_cons.mpr ⟨Nat.le_refl _, fun v hv => ?_⟩
      exact Nat.le_trans hfilled.le (h.behind v hv)
    · intro i hi hcovers
      obtain ⟨hhead, htail⟩ := List.forall_mem_cons.mp hcovers
      refine h.blank i ?_ htail
      by_contra hlt
      exact hhead ⟨hi, Nat.lt_of_not_le hlt⟩

/-! ## The scanner -/

variable {done : Array Token} {c : Char} {cs digits : List Char} {u : Token} {p : Char → Bool}
  {q : UInt8 → Bool}

theorem bytesValue_encode (h : ∀ c ∈ digits, c.isDigit = true) :
    bytesValue (encode digits) = digitsValue digits := by
  rw [sameCodes_digit.encode_run h, bytesValue, List.foldl_map, digitsValue,
    Nat.ofDigitChars_eq_foldl]
  apply List.foldl_ext
  intro n c hc
  have hle := (Char.isDigit_iff_toNat.mp (h c hc)).2
  have hlt : c.toNat < 256 := Nat.lt_of_le_of_lt hle (by decide)
  rw [UInt8.toNat_ofNat', Nat.mod_eq_of_lt hlt]
  rfl

theorem run_of_takeWhile (hc : p c = true) : ∀ d ∈ c :: cs.takeWhile p, p d = true :=
  List.forall_mem_cons.mpr ⟨hc, fun _ hd => List.mem_takeWhile_imp hd⟩

theorem heads_run (h : SameCodes false p q) (hc : p c = true) (hcontinues : l.continues = q)
    (hspelled : Spelled l (encode (c :: cs.takeWhile p))) :
    Token.Heads ⟨l, pos, pos + (c :: cs.takeWhile p).length⟩ pos (encode (c :: cs)) := by
  refine ⟨rfl, _, encode (cs.dropWhile p), ?_, ?_, hspelled, ?_⟩
  · rw [← encode_append, List.cons_append, List.takeWhile_append_dropWhile]
  · rw [h.length_encode (run_of_takeWhile hc)]
  · rw [hcontinues]
    exact h.stops_encode (stopsRun_dropWhile p cs)

theorem heads_ofDigits (hc : c.isDigit = true)
    (h : Token.ofDigits pos (c :: cs.takeWhile Char.isDigit) = .ok t) :
    t.Heads pos (encode (c :: cs)) := by
  have hall : ∀ d ∈ c :: cs.takeWhile Char.isDigit, d.isDigit = true := run_of_takeWhile hc
  simp only [Token.ofDigits] at h
  split at h
  · rename_i hsize
    obtain rfl := Except.ok.inj h
    apply heads_run sameCodes_digit hc rfl
    rw [← bytesValue_encode hall] at hsize ⊢
    refine .integer ?_ (sameCodes_digit.all_encode hall) hsize
    rw [sameCodes_digit.encode_run hall]
    simp
  · cases h

theorem heads_ofName (hc : isNameStart c = true) :
    (Token.ofName pos (c :: cs.takeWhile isNamePart)).Heads pos (encode (c :: cs)) := by
  have hpart : isNamePart c = true := isNamePart_of_isNameStart hc
  apply heads_run sameCodes_namePart hpart rfl
  rw [encode_cons, sameCodes_nameStart.encodeChar (ne_false_of_eq_true hc), List.singleton_append]
  refine .name ?_ ?_ ?_
  · rw [utf8_ofList, encode_cons, sameCodes_nameStart.encodeChar (ne_false_of_eq_true hc),
      List.singleton_append]
  · rw [sameCodes_nameStart.first (sameCodes_nameStart.encodeChar (ne_false_of_eq_true hc)), hc]
  · exact sameCodes_namePart.all_encode fun d hd => List.mem_takeWhile_imp hd

theorem continues_of_mark (hc : Lexeme.ofMark? c = some l) (b : UInt8) :
    l.continues b = false := by
  unfold Lexeme.ofMark? at hc
  split at hc <;> cases hc <;> rfl

theorem heads_mark (hc : Lexeme.ofMark? c = some l) :
    Token.Heads ⟨l, pos, pos + 1⟩ pos (encode (c :: cs)) := by
  have hbyte := sameCodes_mark.encodeChar (c := c) (by simp [hc])
  refine ⟨rfl, [UInt8.ofNat c.toNat], encode cs, ?_, rfl, .mark ?_, ?_⟩
  · rw [encode_cons, hbyte]
  · rw [sameCodes_mark.first hbyte, hc]
  · intro b _
    exact continues_of_mark hc b

theorem heads_encode_iff : t.Heads pos (encode (c :: cs)) ↔
    (c.isDigit = true ∧ Token.ofDigits pos (c :: cs.takeWhile Char.isDigit) = .ok t) ∨
    (isNameStart c = true ∧ t = Token.ofName pos (c :: cs.takeWhile isNamePart)) ∨
    (∃ l, Lexeme.ofMark? c = some l ∧ t = ⟨l, pos, pos + 1⟩) := by
  constructor
  · obtain ⟨l, start, stop⟩ := t
    rintro ⟨hstart, run, tail, htext, hstop, hspelled, hlongest⟩
    simp only at hstart hstop hspelled hlongest
    subst hstart hstop
    cases hspelled with
    | integer hne hall hsize =>
      obtain ⟨hc, rfl⟩ := sameCodes_digit.eq_encode htext hne hall hlongest
      left
      refine ⟨hc, ?_⟩
      rw [bytesValue_encode (run_of_takeWhile hc)] at hsize ⊢
      rw [sameCodes_digit.length_encode (run_of_takeWhile hc)]
      exact if_pos hsize
    | @name name b bs hname hb hbs =>
      obtain ⟨bs', hfirst⟩ := first_of_encode htext
      rw [sameCodes_nameStart.first hfirst] at hb
      have hpart : ∀ d ∈ b :: bs, isNamePartByte d = true := by
        refine List.forall_mem_cons.mpr ⟨?_, hbs⟩
        rw [sameCodes_namePart.first hfirst, isNamePart_of_isNameStart hb]
      obtain ⟨hc, hrun⟩ := sameCodes_namePart.eq_encode htext (by simp) hpart hlongest
      right; left
      refine ⟨hb, ?_⟩
      rw [hrun, ← utf8_ofList] at hname
      rw [utf8_inj hname, hrun, sameCodes_namePart.length_encode (run_of_takeWhile hc)]
      rfl
    | mark hb =>
      obtain ⟨bs', hfirst⟩ := first_of_encode htext
      rw [sameCodes_mark.first hfirst] at hb
      right; right
      exact ⟨l, hb, rfl⟩
  · rintro (⟨hc, hdigits⟩ | ⟨hc, rfl⟩ | ⟨l, hc, rfl⟩)
    · exact heads_ofDigits hc hdigits
    · exact heads_ofName hc
    · exact heads_mark hc

theorem longestMatch_push {s : TokenStream} (hb : bytes[pos]? = some b)
    (hblank : isBlankByte b = false) (hheads : ∀ t, t.Heads pos (bytes.drop pos) ↔ t = u) :
    (∃ tokens, s = ⟨done.toList ++ tokens, bytes.length⟩ ∧ LongestMatch bytes pos tokens) ↔
      ∃ tokens, s = ⟨(done.push u).toList ++ tokens, bytes.length⟩ ∧
        LongestMatch bytes u.stop tokens := by
  simp only [longestMatch_token hb hblank, hheads, Array.toList_push, List.append_assoc,
    List.singleton_append]
  constructor
  · rintro ⟨_, hs, _, ts, rfl, rfl, h⟩
    exact ⟨ts, hs, h⟩
  · rintro ⟨ts, hs, h⟩
    exact ⟨u :: ts, hs, u, ts, rfl, rfl, h⟩

theorem first_byte (hdrop : bytes.drop pos = encode (c :: cs)) :
    ∃ b, bytes[pos]? = some b ∧ isBlankByte b = isBlank c := by
  obtain ⟨b, bs, hfirst⟩ := List.exists_cons_of_ne_nil (String.utf8EncodeChar_ne_nil (c := c))
  refine ⟨b, ?_, sameCodes_blank.first hfirst⟩
  rw [← List.head?_drop, hdrop, encode_cons, hfirst]
  rfl

theorem scan_eq_ok_iff {s : TokenStream} (hdrop : bytes.drop pos = encode cs)
    (hpos : pos ≤ bytes.length) : scan pos done cs = .ok s ↔
      ∃ tokens, s = ⟨done.toList ++ tokens, bytes.length⟩ ∧ LongestMatch bytes pos tokens := by
  -- Each step of the scanner is a step of the longest match at the same byte.
  fun_induction scan pos done cs with
  | case1 pos done =>
    obtain rfl : pos = bytes.length :=
      Nat.le_antisymm hpos (List.drop_eq_nil_iff.mp hdrop)
    simp only [longestMatch_end, exists_eq_right, List.append_nil, Except.ok.injEq]
    exact eq_comm
  | case2 pos done c cs hblank ih =>
    obtain ⟨b, hb, hclass⟩ := first_byte hdrop
    rw [← List.singleton_append] at hdrop
    obtain ⟨hdrop', hpos'⟩ := drop_encode hdrop hpos
      (sameCodes_blank.singleton_length (ne_false_of_eq_true hblank))
    simp only [longestMatch_blank hb (hclass.trans hblank)]
    exact ih hdrop' hpos'
  | case3 pos done c cs hblank hdigit token htoken ih =>
    obtain ⟨b, hb, hclass⟩ := first_byte hdrop
    have hheads : ∀ t : Token, t.Heads pos (bytes.drop pos) ↔ t = token := by
      intro t
      simp [hdrop, heads_encode_iff, hdigit, class_of_digit hdigit, htoken, eq_comm]
    rw [longestMatch_push hb (by simp [hclass, hblank]) hheads]
    rw [← List.takeWhile_append_dropWhile (p := Char.isDigit) (l := cs),
      ← List.cons_append] at hdrop
    obtain ⟨hdrop', hpos'⟩ := drop_encode hdrop hpos
      (sameCodes_digit.length_encode (run_of_takeWhile hdigit))
    rw [← (places_of_ofDigits htoken).2] at hdrop' hpos'
    exact ih hdrop' hpos'
  | case4 pos done c cs hblank hdigit e he =>
    obtain ⟨b, hb, hclass⟩ := first_byte hdrop
    have hheads : ∀ t : Token, ¬ t.Heads pos (bytes.drop pos) := by
      intro t
      simp [hdrop, heads_encode_iff, hdigit, class_of_digit hdigit, he]
    simp [longestMatch_token hb (by simp [hclass, hblank]), hheads]
  | case5 pos done c cs hblank hdigit hname token ih =>
    obtain ⟨b, hb, hclass⟩ := first_byte hdrop
    have hheads : ∀ t : Token, t.Heads pos (bytes.drop pos) ↔ t = token := by
      intro t
      simp [hdrop, heads_encode_iff, hdigit, hname, ofMark?_of_isNameStart hname, token]
    rw [longestMatch_push hb (by simp [hclass, hblank]) hheads]
    rw [← List.takeWhile_append_dropWhile (p := isNamePart) (l := cs),
      ← List.cons_append] at hdrop
    obtain ⟨hdrop', hpos'⟩ := drop_encode hdrop hpos
      (sameCodes_namePart.length_encode (run_of_takeWhile (isNamePart_of_isNameStart hname)))
    exact ih hdrop' hpos'
  | case6 pos done c cs hblank hdigit hname l hl ih =>
    obtain ⟨b, hb, hclass⟩ := first_byte hdrop
    have hheads : ∀ t : Token, t.Heads pos (bytes.drop pos) ↔ t = ⟨l, pos, pos + 1⟩ := by
      intro t
      simp [hdrop, heads_encode_iff, hdigit, hname, hl]
    rw [longestMatch_push hb (by simp [hclass, hblank]) hheads]
    rw [← List.singleton_append] at hdrop
    obtain ⟨hdrop', hpos'⟩ := drop_encode hdrop hpos
      (sameCodes_mark.singleton_length (by simp [hl]))
    exact ih hdrop' hpos'
  | case7 pos done c cs hblank hdigit hname hl =>
    obtain ⟨b, hb, hclass⟩ := first_byte hdrop
    have hheads : ∀ t : Token, ¬ t.Heads pos (bytes.drop pos) := by
      intro t
      simp [hdrop, heads_encode_iff, hdigit, hname, hl]
    simp [longestMatch_token hb (by simp [hclass, hblank]), hheads]

theorem tokenize_eq_ok_iff {text : String} {s : TokenStream} : tokenize text = .ok s ↔
    ∃ tokens, s = ⟨tokens, text.utf8ByteSize⟩ ∧ LongestMatch (utf8 text) 0 tokens := by
  rw [← length_utf8]
  exact scan_eq_ok_iff (utf8_eq_encode text) (Nat.zero_le _)

/-- The tokens of a text are its longest match, with the end of the text behind them. -/
theorem tokenize_toList_iff (text : String) (tokens : List Token) :
    (tokenize text).map TokenStream.toList = .ok tokens ↔
      ∃ found, tokens = found ++ [⟨.endOfText, text.utf8ByteSize, text.utf8ByteSize⟩] ∧
        LongestMatch (utf8 text) 0 found := by
  constructor
  · intro h
    cases hs : tokenize text with
    | error e =>
      rw [hs] at h
      cases h
    | ok s =>
      rw [hs] at h
      obtain ⟨found, rfl, hmatch⟩ := tokenize_eq_ok_iff.mp hs
      exact ⟨found, (Except.ok.inj h).symm, hmatch⟩
  · rintro ⟨found, rfl, hmatch⟩
    rw [tokenize_eq_ok_iff.mpr ⟨found, rfl, hmatch⟩]
    rfl

/-- A number ends before a letter, a name goes on with a digit. -/
example : (tokenize "007abc abc7").map TokenStream.toList =
    .ok [⟨.integer 7, 0, 3⟩, ⟨.name "abc", 3, 6⟩, ⟨.name "abc7", 7, 11⟩, ⟨.endOfText, 11, 11⟩] := by
  cbv

end Arith64

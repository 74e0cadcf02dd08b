import Arith64.Proofs.Reading
import Arith64.Proofs.Scanning

/-!
# Writing and reading

The reference text of an expression reads back to it as long as the nesting
allows, and a text reads as an expression only if it has the lexemes of the
reference text, with or without signs in front of zeros. Beyond the limit the
text still tells the expression, also with more text behind it.
-/

namespace Arith64

/-! ## The end of a text -/

namespace TokenStream

variable {s s' : TokenStream}

theorem expect_endOfText (h : ∀ t ∈ s.tokens, t.lexeme ≠ .endOfText) :
    s.expect .endOfText = .ok s' ↔ s.tokens = [] ∧ s = s' := by
  obtain ⟨_ | ⟨t, ts⟩, stop⟩ := s
  · simp [expect, front, rest, endMark]
  · have ht := h t List.mem_cons_self
    simp [expect, front, ht, refuse]

theorem shows_all_iff {ls : List Lexeme} :
    (∃ m, s.Shows ls m ∧ m.tokens = []) ↔ s.tokens.map Token.lexeme = ls := by
  constructor
  · rintro ⟨m, ⟨tokens, hls, rfl⟩, hm⟩
    simpa [hm] using hls
  · intro h
    exact ⟨⟨[], s.stop⟩, ⟨s.tokens, h, by simp⟩, rfl⟩

theorem mem_of_shows {ls : List Lexeme} (h : s.Shows ls s') {t : Token} (ht : t ∈ s'.tokens) :
    t ∈ s.tokens := by
  obtain ⟨tokens, -, rfl⟩ := h
  exact List.mem_append_right tokens ht

end TokenStream

namespace Expr

/-! ## Whole texts -/

theorem parse_eq_ok_iff {text : String} {e : Expr} :
    parse text = .ok e ↔
      e.depth < nestingLimit ∧ ∃ s, tokenize text = .ok s ∧
        Spells e (s.tokens.map Token.lexeme) := by
  constructor
  · intro h
    obtain ⟨s, hs, h⟩ := bind_eq_ok_iff.mp h
    obtain ⟨⟨e, m⟩, hread, h⟩ := bind_eq_ok_iff.mp h
    obtain ⟨_, hend, h⟩ := bind_eq_ok_iff.mp h
    cases h
    obtain ⟨hdepth, ls, hspells, hshows⟩ := TokenStream.readExpr_eq_ok_iff.mp hread
    have hmarks := endOfText_not_mem_of_tokenize hs
    have hnil := ((TokenStream.expect_endOfText
      fun t ht => hmarks t (TokenStream.mem_of_shows hshows ht)).mp hend).1
    rw [← TokenStream.shows_all_iff.mp ⟨m, hshows, hnil⟩] at hspells
    exact ⟨hdepth, s, hs, hspells⟩
  · rintro ⟨hdepth, s, hs, hspells⟩
    obtain ⟨m, hshows, hnil⟩ := TokenStream.shows_all_iff.mpr rfl
    have hread := TokenStream.readExpr_eq_ok_iff.mpr ⟨hdepth, _, hspells, hshows⟩
    have hend := (TokenStream.expect_endOfText (by simp [hnil])).mpr ⟨hnil, rfl⟩
    simp only [parse, hs, hread, hend, ok_bind]
    rfl

theorem spells_reference (e : Expr) :
    ∃ s, tokenize e.reference = .ok s ∧ Spells e (s.tokens.map Token.lexeme) := by
  obtain ⟨s, hs, hlexemes⟩ := tokenize_reference e
  rw [TokenStream.lexemes_eq] at hlexemes
  refine ⟨s, hs, ?_⟩
  rw [List.append_cancel_right hlexemes]
  exact .lexemes e

/-! ## One text in front of another -/

theorem lexemes_isPrefix {e : Expr} {rest : List Char} {pos : Nat} {s : TokenStream}
    (h : scan pos #[] (e.reference.toList ++ rest) = .ok s) :
    e.lexemes <+: s.tokens.map Token.lexeme := by
  obtain ⟨tokens, htokens, hscan⟩ := Lexes.reference e pos #[] rest (stopsRun_false rest)
  rw [hscan, Array.empty_append] at h
  rw [← htokens]
  exact (isPrefix_of_scan h).map Token.lexeme

theorem eq_of_reference_isPrefix {a b : Expr} (h : a.reference.toList <+: b.reference.toList) :
    a = b := by
  obtain ⟨rest, htext⟩ := h
  obtain ⟨s, hs, hspells⟩ := spells_reference b
  rw [tokenize, ← htext] at hs
  obtain ⟨more, hlexemes⟩ := lexemes_isPrefix hs
  have hall : a.lexemes ++ more = s.tokens.map Token.lexeme ++ [] := by
    rw [hlexemes, List.append_nil]
  exact ((Spells.lexemes a).append_inj hspells hall).1

/-- No reference text goes on as another one, however deep the expressions are. -/
theorem reference_isPrefix_iff (a b : Expr) :
    a.reference.toList <+: b.reference.toList ↔ a = b := by
  constructor
  · intro h
    exact eq_of_reference_isPrefix h
  · rintro rfl
    exact List.prefix_rfl

/-! ## The limit -/

theorem eq_of_parse_reference {a b : Expr} (h : parse a.reference = .ok b) :
    b = a ∧ a.depth < nestingLimit := by
  obtain ⟨hdepth, s, hs, hspells⟩ := parse_eq_ok_iff.mp h
  obtain ⟨s', hs', hspells'⟩ := spells_reference a
  rw [hs] at hs'
  cases hs'
  obtain rfl := hspells.unique hspells'
  exact ⟨rfl, hdepth⟩

theorem parse_reference {e : Expr} (h : e.depth < nestingLimit) : parse e.reference = .ok e :=
  parse_eq_ok_iff.mpr ⟨h, spells_reference e⟩

theorem parse_reference_error {e : Expr} (h : nestingLimit ≤ e.depth) :
    ∃ error, parse e.reference = .error error := by
  cases hparse : parse e.reference with
  | error error => exact ⟨error, rfl⟩
  | ok e' =>
    obtain ⟨-, hdepth⟩ := eq_of_parse_reference hparse
    exact absurd hdepth (Nat.not_lt.mpr h)

/-- An expression is read back from its reference text below the limit and only there. -/
theorem parse_reference_iff (e : Expr) :
    (parse e.reference = .ok e ↔ e.depth < 512) ∧
      ((∃ error, parse e.reference = .error error) ↔ 512 ≤ e.depth) := by
  constructor
  · constructor
    · intro h
      exact (eq_of_parse_reference h).2
    · intro h
      exact parse_reference h
  · constructor
    · rintro ⟨error, herror⟩
      rw [← Nat.not_lt]
      intro h
      rw [parse_reference h] at herror
      cases herror
    · intro h
      exact parse_reference_error h

/-- A text reads as an expression exactly if it has the lexemes of the reference text, but for
signs of zeros, and the nesting stays below the limit. -/
theorem parse_eq_ok_iff_signedZeros (text : String) (e : Expr) :
    parse text = .ok e ↔
      e.depth < 512 ∧ ∃ read written, tokenize text = .ok read ∧
        tokenize e.reference = .ok written ∧ SignedZeros written.lexemes read.lexemes := by
  obtain ⟨written, hwritten, hlexemes⟩ := tokenize_reference e
  rw [parse_eq_ok_iff]
  constructor
  · rintro ⟨hdepth, read, hread, hspells⟩
    refine ⟨hdepth, read, written, hread, hwritten, ?_⟩
    rw [hlexemes, TokenStream.lexemes_eq]
    exact hspells.signedZeros (.refl _)
  · rintro ⟨hdepth, read, written', hread, hwritten', hzeros⟩
    rw [hwritten] at hwritten'
    cases hwritten'
    rw [hlexemes, TokenStream.lexemes_eq] at hzeros
    obtain ⟨ls, ys, hall, hspells, hend⟩ := SignedZeros.of_lexemes e hzeros
    obtain ⟨ys, rfl, hnil⟩ := SignedZeros.of_cons (by decide) hend
    cases hnil
    rw [← List.append_cancel_right hall] at hspells
    exact ⟨hdepth, read, hread, hspells⟩

end Expr

end Arith64

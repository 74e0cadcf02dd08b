import Mathlib
import Arith64.Proofs.Decimal
import Arith64.Proofs.Grammar
import Arith64.Reference.Scan

/-!
# The reference text in lexemes

The scanner takes one piece after another off the front of a text. A text that
ends with a mark is cut into the same lexemes whatever goes on behind it, and
every reference text ends with a closing parenthesis.
-/

namespace Arith64

/-! ## Classes of characters -/

theorem class_of_blank {c : Char} (h : isBlank c = true) :
    c.isDigit = false ∧ isNameStart c = false := by
  simp only [isBlank, Bool.or_eq_true, beq_iff_eq] at h
  rcases h with (((rfl | rfl) | rfl) | rfl) | rfl <;> decide

theorem not_isDigit_of_isNameStart {c : Char} (h : isNameStart c = true) : c.isDigit = false := by
  rw [← Bool.not_eq_true, Char.isDigit_iff_toNat]
  simp only [isNameStart, Char.isAlpha, Char.isUpper, Char.isLower, Bool.or_eq_true,
    Bool.and_eq_true, decide_eq_true_eq, beq_iff_eq, ge_iff_le, UInt32.le_iff_toNat_le] at h
  rcases h with (h | h) | rfl
  · exact fun hdigit => absurd (Nat.le_trans h.1 hdigit.2) (by decide)
  · exact fun hdigit => absurd (Nat.le_trans h.1 hdigit.2) (by decide)
  · decide

theorem class_of_mark {c : Char} {l : Lexeme} (h : Lexeme.ofMark? c = some l) :
    isBlank c = false ∧ c.isDigit = false ∧ isNameStart c = false := by
  unfold Lexeme.ofMark? at h
  split at h
  · decide
  · decide
  · decide
  · decide
  · decide
  · decide
  · cases h

theorem isNamePart_of_isNameStart {c : Char} (h : isNameStart c = true) : isNamePart c = true := by
  simp only [isNameStart, isNamePart, Char.isAlphanum, Bool.or_eq_true] at h ⊢
  rcases h with h | h
  · exact .inl (.inl h)
  · exact .inr h

theorem class_of_digit {c : Char} (h : c.isDigit = true) :
    isNameStart c = false ∧ Lexeme.ofMark? c = none := by
  constructor
  · by_contra hname
    rw [not_isDigit_of_isNameStart (by simpa using hname)] at h
    cases h
  · by_contra hmark
    obtain ⟨l, hl⟩ := Option.ne_none_iff_exists'.mp hmark
    rw [(class_of_mark hl).2.1] at h
    cases h

theorem ofMark?_of_isNameStart {c : Char} (h : isNameStart c = true) :
    Lexeme.ofMark? c = none := by
  by_contra hmark
  obtain ⟨l, hl⟩ := Option.ne_none_iff_exists'.mp hmark
  rw [(class_of_mark hl).2.2] at h
  cases h

/-! ## One piece -/

variable {pos : Nat} {done : Array Token} {c : Char} {cs run rest : List Char}

theorem scan_nil : scan pos done [] = .ok ⟨done.toList, pos⟩ := by
  rw [scan]

theorem scan_blank (h : isBlank c = true) : scan pos done (c :: cs) = scan (pos + 1) done cs := by
  rw [scan, if_pos h]

theorem scan_digits (hc : c.isDigit = true) (hrun : ∀ d ∈ run, d.isDigit = true)
    (hrest : StopsRun Char.isDigit rest) (hsize : digitsValue (c :: run) < UInt64.size) :
    scan pos done (c :: run ++ rest) =
      scan (pos + (c :: run).length)
        (done.push ⟨.integer (digitsValue (c :: run)), pos, pos + (c :: run).length⟩) rest := by
  have hblank : ¬ isBlank c = true := by
    intro h
    rw [(class_of_blank h).1] at hc
    cases hc
  rw [List.cons_append, scan, if_neg hblank, if_pos hc, takeWhile_run hrun hrest,
    dropWhile_run hrun hrest]
  simp only [Token.ofDigits, if_pos hsize]

theorem scan_name (hc : isNameStart c = true) (hrun : ∀ d ∈ run, isNamePart d = true)
    (hrest : StopsRun isNamePart rest) :
    scan pos done (c :: run ++ rest) =
      scan (pos + (c :: run).length) (done.push (Token.ofName pos (c :: run))) rest := by
  have hblank : ¬ isBlank c = true := by
    intro h
    rw [(class_of_blank h).2] at hc
    cases hc
  have hdigit : ¬ c.isDigit = true := by
    rw [not_isDigit_of_isNameStart hc]
    exact Bool.false_ne_true
  rw [List.cons_append, scan, if_neg hblank, if_neg hdigit, if_pos hc, takeWhile_run hrun hrest,
    dropWhile_run hrun hrest]
  rfl

theorem scan_mark {l : Lexeme} (h : Lexeme.ofMark? c = some l) :
    scan pos done (c :: cs) = scan (pos + 1) (done.push ⟨l, pos, pos + 1⟩) cs := by
  obtain ⟨hblank, hdigit, hname⟩ := class_of_mark h
  rw [scan]
  simp only [hblank, hdigit, hname, h, Bool.false_eq_true, if_false]

/-! ## Pieces one after another -/

/-- The text is cut into these lexemes, whatever stands in front of it, if no character of the
class `p` goes on behind it. -/
def LexesBefore (p : Char → Bool) (text : String) (ls : List Lexeme) : Prop :=
  ∀ pos done rest, StopsRun p rest → ∃ tokens : Array Token, tokens.toList.map Token.lexeme = ls ∧
    scan pos done (text.toList ++ rest) = scan (pos + text.length) (done ++ tokens) rest

/-- The text is cut into these lexemes, whatever stands in front of it and behind it. -/
def Lexes (text : String) (ls : List Lexeme) : Prop := LexesBefore (fun _ => false) text ls

theorem stopsRun_false (rest : List Char) : StopsRun (fun _ => false) rest := fun _ _ => rfl

section Pieces

variable {p q : Char → Bool} {s t : String} {ls ms : List Lexeme}

theorem LexesBefore.append (hs : LexesBefore p s ls) (ht : LexesBefore q t ms)
    (hstop : ∀ rest, StopsRun p (t.toList ++ rest)) : LexesBefore q (s ++ t) (ls ++ ms) := by
  intro pos done rest hrest
  obtain ⟨ts, hts, hscan⟩ := hs pos done (t.toList ++ rest) (hstop rest)
  obtain ⟨us, hus, hscan'⟩ := ht (pos + s.length) (done ++ ts) rest hrest
  refine ⟨ts ++ us, by simp [hts, hus], ?_⟩
  rw [String.toList_append, List.append_assoc, hscan, hscan', String.length_append,
    Nat.add_assoc, Array.append_assoc]

theorem Lexes.append (hs : Lexes s ls) (ht : Lexes t ms) : Lexes (s ++ t) (ls ++ ms) := by
  apply LexesBefore.append hs ht
  intro rest
  exact stopsRun_false _

theorem lexesBefore_name {name : String} (hname : name.toList = c :: run)
    (hc : isNameStart c = true) (hrun : run.all isNamePart = true) :
    LexesBefore isNamePart name [.name name] := by
  intro pos done rest hrest
  rw [List.all_eq_true] at hrun
  have hlength : (c :: run).length = name.length := by
    rw [← hname, String.length_toList]
  have htoken : Token.ofName pos (c :: run) = ⟨.name name, pos, pos + name.length⟩ := by
    rw [Token.ofName, hlength, ← hname, String.ofList_toList]
  refine ⟨#[⟨.name name, pos, pos + name.length⟩], rfl, ?_⟩
  rw [hname, scan_name hc hrun hrest, hlength, htoken]
  rfl

theorem lexesBefore_decimal {n : Nat} (hn : n < UInt64.size) :
    LexesBefore Char.isDigit (decimal n) [.integer n] := by
  intro pos done rest hrest
  obtain ⟨c, run, hdigits, hc, hrun⟩ := decimal_toList_eq_cons n
  have hlength : (c :: run).length = (decimal n).length := by
    rw [← hdigits, String.length_toList]
  have hvalue : digitsValue (c :: run) = n := by
    rw [← hdigits, digitsValue_decimal]
  have hsize : digitsValue (c :: run) < UInt64.size := by
    rw [hvalue]
    exact hn
  refine ⟨#[⟨.integer n, pos, pos + (decimal n).length⟩], rfl, ?_⟩
  rw [hdigits, scan_digits hc hrun hrest hsize, hlength, hvalue]
  rfl

namespace Lexes

theorem blank (c : Char) (h : isBlank c = true) : Lexes (String.singleton c) [] := by
  intro pos done rest _
  exact ⟨#[], rfl, by simpa using scan_blank h⟩

theorem mark (c : Char) {l : Lexeme} (h : Lexeme.ofMark? c = some l) :
    Lexes (String.singleton c) [l] := by
  intro pos done rest _
  exact ⟨#[⟨l, pos, pos + 1⟩], rfl, by simpa using scan_mark h⟩

theorem openParen : Lexes "(" [.openParen] := mark '(' rfl

theorem closeParen : Lexes ")" [.closeParen] := mark ')' rfl

theorem minus : Lexes "-" [.minus] := mark '-' rfl

theorem space : Lexes " " [] := blank ' ' rfl

theorem comma : Lexes ", " [.comma] := (mark ',' rfl).append space

theorem name_openParen (name : String) (hname : name.toList = c :: run)
    (hc : isNameStart c = true) (hrun : run.all isNamePart = true) :
    Lexes (name ++ "(") [.name name, .openParen] := by
  apply (lexesBefore_name hname hc hrun).append openParen
  intro rest
  exact stopsRun_cons rfl

theorem decimal_closeParen {n : Nat} (hn : n < UInt64.size) :
    Lexes (decimal n ++ ")") [.integer n, .closeParen] := by
  apply (lexesBefore_decimal hn).append closeParen
  intro rest
  exact stopsRun_cons rfl

end Lexes

end Pieces

/-! ## The reference text -/

namespace Lexes

theorem literal (v : Int64) : Lexes (Expr.literal v).reference (Expr.literal v).lexemes := by
  have hname : Lexes "i64(" [.name "i64", .openParen] := name_openParen "i64" rfl rfl rfl
  have hdigits := decimal_closeParen (natAbs_toInt_lt v)
  unfold Expr.reference Expr.lexemes literalLexemes
  by_cases hneg : v.toInt < 0
  · rw [decimalWord_of_neg hneg, String.append_assoc, String.append_assoc]
    simpa [hneg] using hname.append (minus.append hdigits)
  · rw [decimalWord_of_nonneg (by omega), String.append_assoc]
    simpa [hneg] using hname.append hdigits

theorem opening_none {op : BinOp} (h : op.callName? = none) : Lexes "(" op.opening := by
  rw [BinOp.opening, h]
  exact openParen

theorem opening_call {op : BinOp} {f : String} (h : op.callName? = some f) :
    Lexes (f ++ "(") op.opening := by
  cases op <;> simp only [BinOp.callName?, reduceCtorEq, Option.some.injEq] at h <;> subst h
  · exact name_openParen "div" rfl rfl rfl
  · exact name_openParen "fmod" rfl rfl rfl
  · exact name_openParen "mulhi" rfl rfl rfl

theorem separator_none {op : BinOp} (h : op.callName? = none) :
    Lexes (" " ++ op.symbol ++ " ") [op.separator] := by
  cases op <;> simp only [BinOp.callName?, reduceCtorEq] at h
  · exact (space.append (mark '+' rfl)).append space
  · exact (space.append minus).append space
  · exact (space.append (mark '*' rfl)).append space

theorem separator_call {op : BinOp} {f : String} (h : op.callName? = some f) :
    Lexes ", " [op.separator] := by
  cases op <;> simp only [BinOp.callName?, reduceCtorEq] at h <;> exact comma

theorem reference (e : Expr) : Lexes e.reference e.lexemes := by
  induction e with
  | literal v => exact literal v
  | negate e ih => exact minus.append ih
  | binary op l r ihl ihr =>
    unfold Expr.reference Expr.lexemes
    cases hcall : op.callName? with
    | none =>
      have hleft := (opening_none hcall).append ihl
      have hright := ihr.append closeParen
      simpa [String.append_assoc] using (hleft.append (separator_none hcall)).append hright
    | some f =>
      have hleft := (opening_call hcall).append ihl
      have hright := ihr.append closeParen
      simpa [String.append_assoc] using (hleft.append (separator_call hcall)).append hright
  | group e ih => exact (openParen.append ih).append closeParen

end Lexes

/-! ## The whole text -/

/-- The lexemes of a text, the end among them. -/
def TokenStream.lexemes (s : TokenStream) : List Lexeme := s.toList.map Token.lexeme

theorem TokenStream.lexemes_eq (s : TokenStream) :
    s.lexemes = s.tokens.map Token.lexeme ++ [.endOfText] := by
  simp [lexemes, toList, endMark]

theorem tokenize_reference (e : Expr) :
    ∃ s, tokenize e.reference = .ok s ∧ s.lexemes = e.lexemes ++ [.endOfText] := by
  obtain ⟨tokens, htokens, hscan⟩ := Lexes.reference e 0 #[] [] (stopsRun_nil _)
  rw [List.append_nil, scan_nil] at hscan
  refine ⟨_, hscan, ?_⟩
  rw [TokenStream.lexemes_eq, ← htokens, Array.empty_append]

theorem isPrefix_push {done : Array Token} {u : Token} : done.toList <+: (done.push u).toList :=
  ⟨[u], Array.toList_push.symm⟩

theorem isPrefix_of_scan {s : TokenStream} (h : scan pos done cs = .ok s) :
    done.toList <+: s.tokens := by
  fun_induction scan pos done cs with
  | case1 pos done =>
    cases h
    exact List.prefix_rfl
  | case2 pos done c cs hblank ih => exact ih h
  | case3 pos done c cs hblank hdigit token htoken ih => exact isPrefix_push.trans (ih h)
  | case4 => cases h
  | case5 pos done c cs hblank hdigit hname token ih => exact isPrefix_push.trans (ih h)
  | case6 pos done c cs hblank hdigit hname l hl ih => exact isPrefix_push.trans (ih h)
  | case7 => cases h

theorem lexeme_of_ofDigits {t : Token} (h : Token.ofDigits pos run = .ok t) :
    t.lexeme = .integer (digitsValue run) := by
  simp only [Token.ofDigits] at h
  split at h
  · cases h
    rfl
  · cases h

theorem ofMark?_ne_endOfText : Lexeme.ofMark? c ≠ some .endOfText := by
  unfold Lexeme.ofMark?
  split <;> simp

theorem endOfText_not_mem_push {done : Array Token} {u : Token}
    (hdone : ∀ t ∈ done, t.lexeme ≠ .endOfText) (hu : u.lexeme ≠ .endOfText) :
    ∀ t ∈ done.push u, t.lexeme ≠ .endOfText := by
  intro t ht
  rcases Array.mem_push.mp ht with ht | rfl
  · exact hdone t ht
  · exact hu

theorem endOfText_not_mem_of_scan {s : TokenStream} (h : scan pos done cs = .ok s)
    (hdone : ∀ t ∈ done, t.lexeme ≠ .endOfText) : ∀ t ∈ s.tokens, t.lexeme ≠ .endOfText := by
  fun_induction scan pos done cs with
  | case1 pos done =>
    cases h
    simpa using hdone
  | case2 pos done c cs hblank ih => exact ih h hdone
  | case3 pos done c cs hblank hdigit token htoken ih =>
    exact ih h (endOfText_not_mem_push hdone (by simp [lexeme_of_ofDigits htoken]))
  | case4 => cases h
  | case5 pos done c cs hblank hdigit hname token ih =>
    exact ih h (endOfText_not_mem_push hdone (by simp [token, Token.ofName]))
  | case6 pos done c cs hblank hdigit hname l hl ih =>
    refine ih h (endOfText_not_mem_push hdone ?_)
    rintro rfl
    exact ofMark?_ne_endOfText hl
  | case7 => cases h

theorem endOfText_not_mem_of_tokenize {text : String} {s : TokenStream}
    (h : tokenize text = .ok s) : ∀ t ∈ s.tokens, t.lexeme ≠ .endOfText :=
  endOfText_not_mem_of_scan h (by simp)

end Arith64

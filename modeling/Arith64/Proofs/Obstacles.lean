import Mathlib
import Arith64.Proofs.LongestMatch
import Arith64.Reference.Read

/-!
# The first obstacle in a text

A text has no tokens if it has a character that no lexeme has, or a number of
more than 64 bits. The scanner stops at the leftmost of these, whatever is
behind it, and has tokens for all that is in front of it.
-/

namespace Arith64

/-! ## Obstacles -/

/-- Whether a character can be a part of a lexeme, or stand between two. -/
def isLegible (c : Char) : Bool :=
  isBlank c || c.isAlpha || c.isDigit || c == '_' || c ∈ ['(', ')', ',', '+', '-', '*']

def EndsInDigit (before : List Char) : Prop := ∃ c ∈ before.getLast?, c.isDigit = true

/-- The last of these characters are a name, so digits behind them are a part of it. -/
def EndsInName (before : List Char) : Prop :=
  ∃ front c cs, before = front ++ c :: cs ∧ isNameStart c = true ∧ ∀ d ∈ cs, isNamePart d = true

/-- Behind `before` stands something that is in no text with tokens, and these words say what:
a character, or all digits of a number that is no part of a name. -/
inductive Obstacle (before : List Char) : List Char → String → Prop where
  | character {c : Char} {after : List Char} : isLegible c = false →
      Obstacle before (c :: after) ("unexpected character '" ++ String.singleton c ++ "'")
  | number {digits after : List Char} : digits ≠ [] → (∀ d ∈ digits, d.isDigit = true) →
      StopsRun Char.isDigit after → ¬ EndsInDigit before → ¬ EndsInName before →
      2 ^ 64 ≤ digitsValue digits →
      Obstacle before (digits ++ after)
        ("integer literal '" ++ String.ofList digits ++ "' is too large")

variable {pos : Nat} {done : Array Token} {before after run rest cs : List Char} {c : Char}
  {word : String} {err : SyntaxError}

theorem isLegible_eq_false_iff : isLegible c = false ↔
    isBlank c = false ∧ c.isDigit = false ∧ isNameStart c = false ∧ Lexeme.ofMark? c = none := by
  have hmark : Lexeme.ofMark? c = none ↔ c ∉ ['(', ')', ',', '+', '-', '*'] := by
    unfold Lexeme.ofMark?
    split <;> simp_all
  rw [hmark]
  simp only [isLegible, isNameStart, Bool.or_eq_false_iff, decide_eq_false_iff_not]
  tauto

theorem isLegible_of_isBlank (h : isBlank c = true) : isLegible c = true := by
  simp [isLegible, h]

theorem isLegible_of_isNamePart (h : isNamePart c = true) : isLegible c = true := by
  simp only [isNamePart, Char.isAlphanum, Bool.or_eq_true] at h
  rcases h with (h | h) | h <;> simp [isLegible, h]

theorem isLegible_of_mark {l : Lexeme} (h : Lexeme.ofMark? c = some l) : isLegible c = true := by
  by_contra hno
  simp [isLegible_eq_false_iff, h] at hno

theorem isNamePart_of_isDigit (h : c.isDigit = true) : isNamePart c = true := by
  simp [isNamePart, Char.isAlphanum, h]

theorem Obstacle.first (h : Obstacle before (c :: cs) word) :
    isLegible c = false ∨ c.isDigit = true ∧ ¬ EndsInDigit before ∧ ¬ EndsInName before ∧
      2 ^ 64 ≤ digitsValue ((c :: cs).takeWhile Char.isDigit) := by
  generalize htext : c :: cs = text at h
  rcases h with hc | ⟨hne, hall, hstop, hdigit, hname, hlarge⟩
  · obtain ⟨rfl, -⟩ := List.cons.inj htext
    exact .inl hc
  · rw [takeWhile_run hall hstop]
    obtain ⟨d, ds, rfl⟩ := List.exists_cons_of_ne_nil hne
    obtain ⟨rfl, -⟩ := List.cons.inj htext
    exact .inr ⟨hall c List.mem_cons_self, hdigit, hname, hlarge⟩

theorem Obstacle.ne_nil (h : Obstacle before after word) : after ≠ [] := by
  rcases h with _ | ⟨hne, -⟩
  · simp
  · simp [hne]

/-! ## Stretches without one -/

/-- No obstacle starts in `run`. -/
def Clear (before run rest : List Char) : Prop :=
  ∀ front back word, run = front ++ back → back ≠ [] →
    ¬ Obstacle (before ++ front) (back ++ rest) word

theorem Clear.append (hrun : Clear before run (rest ++ after))
    (hrest : Clear (before ++ run) rest after) : Clear before (run ++ rest) after := by
  intro front back word hsplit hback hobstacle
  rcases List.append_eq_append_iff.mp hsplit with ⟨more, rfl, rfl⟩ | ⟨more, rfl, rfl⟩
  · rw [← List.append_assoc] at hobstacle
    exact hrest more back word rfl hback hobstacle
  · by_cases hmore : more = []
    · subst hmore
      rw [List.append_nil] at hrest
      exact hrest [] rest word rfl hback (by simpa using hobstacle)
    · rw [List.append_assoc] at hobstacle
      exact hrun front more word rfl hmore hobstacle

theorem Clear.isPrefix (h : Clear [] before after) {before' after' : List Char}
    (htext : before' ++ after' = before ++ after) (hobstacle : Obstacle before' after' word) :
    before <+: before' := by
  rcases List.append_eq_append_iff.mp htext with ⟨more, rfl, rfl⟩ | ⟨more, rfl, rfl⟩
  · by_cases hmore : more = []
    · simp [hmore]
    · exact absurd hobstacle (h before' more word rfl hmore)
  · exact List.prefix_append _ _

theorem clear_of_legible (hlegible : ∀ c ∈ run, isLegible c = true)
    (hnumber : ∀ front d back, run = front ++ d :: back → d.isDigit = true →
      ¬ EndsInDigit (before ++ front) → ¬ EndsInName (before ++ front) →
      digitsValue ((d :: back ++ rest).takeWhile Char.isDigit) < 2 ^ 64) :
    Clear before run rest := by
  intro front back word hsplit hback hobstacle
  obtain ⟨d, back, rfl⟩ := List.exists_cons_of_ne_nil hback
  rcases hobstacle.first with hd | ⟨hd, hdigit, hname, hlarge⟩
  · simp [hlegible d (by simp [hsplit])] at hd
  · exact Nat.not_lt.mpr hlarge (hnumber front d back hsplit hd hdigit hname)

theorem clear_singleton (hc : isLegible c = true) (hdigit : c.isDigit = false) :
    Clear before [c] rest := by
  apply clear_of_legible
  · simpa using hc
  · intro front d back hsplit hd
    have hmem : d ∈ [c] := by simp [hsplit]
    simp [List.mem_singleton.mp hmem, hdigit] at hd

theorem clear_digits (hrun : ∀ d ∈ run, d.isDigit = true) (hrest : StopsRun Char.isDigit rest)
    (hsize : digitsValue run < 2 ^ 64) : Clear before run rest := by
  apply clear_of_legible
  · intro d hd
    exact isLegible_of_isNamePart (isNamePart_of_isDigit (hrun d hd))
  · intro front d back hsplit hd hdigit _
    rcases List.eq_nil_or_concat' front with rfl | ⟨init, last, rfl⟩
    · rw [List.nil_append] at hsplit
      rw [← hsplit, takeWhile_run hrun hrest]
      exact hsize
    · -- a later place is inside the number
      refine absurd ⟨last, ?_, hrun last (by simp [hsplit])⟩ hdigit
      simp [← List.append_assoc]

theorem clear_name (hc : isNameStart c = true) (hrun : ∀ d ∈ run, isNamePart d = true) :
    Clear before (c :: run) rest := by
  apply clear_of_legible
  · intro d hd
    rcases List.mem_cons.mp hd with rfl | hd
    · exact isLegible_of_isNamePart (isNamePart_of_isNameStart hc)
    · exact isLegible_of_isNamePart (hrun d hd)
  · intro front d back hsplit hd _ hname
    rcases List.cons_eq_append_iff.mp hsplit with ⟨rfl, hback⟩ | ⟨front, rfl, rfl⟩
    · obtain ⟨rfl, -⟩ := List.cons.inj hback
      simp [not_isDigit_of_isNameStart hc] at hd
    · refine absurd ⟨before, c, front, rfl, hc, ?_⟩ hname
      exact fun d hd => hrun d (List.mem_append_left _ hd)

/-! ## Between two tokens -/

/-- Neither a number nor a name goes on from `before` to `after`. -/
structure Apart (before after : List Char) : Prop where
  number : EndsInDigit before → StopsRun Char.isDigit after
  name : EndsInName before → StopsRun isNamePart after

theorem apart_nil : Apart [] cs := by
  refine ⟨?_, ?_⟩
  · simp [EndsInDigit]
  · simp [EndsInName]

theorem isNamePart_of_endsInName (h : EndsInName (before ++ [c])) : isNamePart c = true := by
  obtain ⟨front, d, ds, hsplit, hd, hds⟩ := h
  have hlast := congrArg List.getLast? hsplit
  rw [List.getLast?_concat, List.getLast?_append_cons] at hlast
  rcases List.mem_cons.mp (List.mem_of_getLast? hlast.symm) with rfl | hmem
  · exact isNamePart_of_isNameStart hd
  · exact hds c hmem

theorem apart_singleton (hdigit : c.isDigit = false) (hname : isNameStart c = false) :
    Apart (before ++ [c]) rest := by
  refine ⟨?_, ?_⟩
  · rintro ⟨d, hd, htrue⟩
    simp at hd
    simp [hd, htrue] at hdigit
  · intro hends
    have hpart := isNamePart_of_endsInName hends
    simp only [isNamePart, isNameStart, Char.isAlphanum] at hpart hname
    simp_all

theorem EndsInName.of_digits (h : EndsInName (before ++ run))
    (hrun : ∀ d ∈ run, d.isDigit = true) : EndsInName before := by
  obtain ⟨front, c, cs, hsplit, hc, hcs⟩ := h
  have hnot : c ∉ run := by
    intro hmem
    have hdigit := hrun c hmem
    simp [not_isDigit_of_isNameStart hc] at hdigit
  rcases List.append_eq_append_iff.mp hsplit with ⟨more, rfl, rfl⟩ | ⟨more, rfl, hmore⟩
  · simp at hnot
  · rcases List.cons_eq_append_iff.mp hmore with ⟨rfl, rfl⟩ | ⟨more, rfl, rfl⟩
    · simp at hnot
    · exact ⟨front, c, more, rfl, hc, fun d hd => hcs d (List.mem_append_left _ hd)⟩

theorem Apart.of_digit (h : Apart before (c :: cs)) (hc : c.isDigit = true) :
    ¬ EndsInDigit before ∧ ¬ EndsInName before := by
  refine ⟨?_, ?_⟩
  · intro hdigit
    have hstop := h.number hdigit c rfl
    simp [hc] at hstop
  · intro hname
    have hstop := h.name hname c rfl
    simp [isNamePart_of_isDigit hc] at hstop

theorem apart_digits (h : ¬ EndsInName before) (hrun : ∀ d ∈ run, d.isDigit = true)
    (hrest : StopsRun Char.isDigit rest) : Apart (before ++ run) rest :=
  ⟨fun _ => hrest, fun hname => absurd (hname.of_digits hrun) h⟩

theorem apart_of_stopsRun (hrest : StopsRun isNamePart rest) : Apart before rest := by
  refine ⟨fun _ c hc => ?_, fun _ => hrest⟩
  have hpart := hrest c hc
  by_contra hdigit
  simp [isNamePart_of_isDigit (by simpa using hdigit)] at hpart

/-! ## The scanner -/

/-- The scanner takes a text without obstacles. Otherwise it stops at the first one, and it takes
the text in front of that. -/
def ScanPost (before cs : List Char) (pos : Nat) (done : Array Token) :
    Except SyntaxError TokenStream → Prop
  | .ok _ => Clear before cs []
  | .error err => ∃ front after, cs = front ++ after ∧ err.offset = pos + front.length ∧
      Obstacle (before ++ front) after err.cause.message ∧ Clear before front after ∧
      ∃ s, scan pos done front = .ok s

variable {result : Except SyntaxError TokenStream} {pos' : Nat} {done' : Array Token}
  {token : Token}

theorem ScanPost.behind (h : ScanPost (before ++ run) rest pos' done' result)
    (hclear : Clear before run rest) (hpos : pos' = pos + run.length)
    (hscan : ∀ front, front <+: rest → scan pos done (run ++ front) = scan pos' done' front) :
    ScanPost before (run ++ rest) pos done result := by
  rcases result with err | s
  · obtain ⟨front, after, rfl, hoffset, hobstacle, hfront, s, hs⟩ := h
    refine ⟨run ++ front, after, ?_, ?_, ?_, hclear.append hfront, s, ?_⟩
    · rw [List.append_assoc]
    · rw [hoffset, hpos, List.length_append]
      omega
    · rwa [← List.append_assoc]
    · rw [hscan front (List.prefix_append _ _), hs]
  · refine Clear.append ?_ h
    rwa [List.append_nil]

theorem scanPost_here (h : Obstacle before cs err.cause.message) (hoffset : err.offset = pos) :
    ScanPost before cs pos done (.error err) := by
  refine ⟨[], cs, rfl, hoffset, by rwa [List.append_nil], ?_, _, scan_nil⟩
  intro front back word hsplit hback
  simp at hsplit
  exact absurd hsplit.2 hback

theorem ofDigits_eq_ok_iff : Token.ofDigits pos run = .ok token ↔
    digitsValue run < UInt64.size ∧ token = ⟨.integer (digitsValue run), pos, pos + run.length⟩ := by
  simp only [Token.ofDigits]
  split <;> simp_all [eq_comm]

theorem ofDigits_eq_error_iff : Token.ofDigits pos run = .error err ↔
    UInt64.size ≤ digitsValue run ∧ err = ⟨pos, .integerTooLarge (String.ofList run)⟩ := by
  simp only [Token.ofDigits]
  split <;> simp_all [eq_comm]

theorem scan_post (hapart : Apart before cs) :
    ScanPost before cs pos done (scan pos done cs) := by
  -- Each step goes over one lexeme or blank, and no obstacle starts in that.
  fun_induction scan pos done cs generalizing before with
  | case1 =>
    intro front back word hsplit hback
    simp at hsplit
    exact absurd hsplit.2 hback
  | case2 pos done c cs hblank ih =>
    obtain ⟨hdigit, hname⟩ := class_of_blank hblank
    rw [← List.singleton_append]
    exact (ih (apart_singleton hdigit hname)).behind
      (clear_singleton (isLegible_of_isBlank hblank) hdigit) rfl fun front _ => scan_blank hblank
  | case3 pos done c cs hblank hdigit token htoken ih =>
    obtain ⟨hsize, rfl⟩ := ofDigits_eq_ok_iff.mp htoken
    have hrun : ∀ d ∈ c :: cs.takeWhile Char.isDigit, d.isDigit = true := run_of_takeWhile hdigit
    have hstop := stopsRun_dropWhile Char.isDigit cs
    have hrest := ih (apart_digits (hapart.of_digit hdigit).2 hrun hstop)
    have hstep := hrest.behind (clear_digits hrun hstop hsize) rfl fun front hfront =>
      scan_digits hdigit (List.forall_mem_cons.mp hrun).2 (hstop.of_prefix hfront) hsize
    rwa [List.cons_append, List.takeWhile_append_dropWhile] at hstep
  | case4 pos done c cs hblank hdigit e he =>
    obtain ⟨hsize, rfl⟩ := ofDigits_eq_error_iff.mp he
    obtain ⟨hbefore, hname⟩ := hapart.of_digit hdigit
    have hobstacle := Obstacle.number (List.cons_ne_nil _ _) (run_of_takeWhile hdigit)
      (stopsRun_dropWhile Char.isDigit cs) hbefore hname hsize
    rw [List.cons_append, List.takeWhile_append_dropWhile] at hobstacle
    exact scanPost_here hobstacle rfl
  | case5 pos done c cs hblank hdigit hname token =>
    rename_i ih
    have hrun : ∀ d ∈ cs.takeWhile isNamePart, isNamePart d = true :=
      fun _ hd => List.mem_takeWhile_imp hd
    have hstop := stopsRun_dropWhile isNamePart cs
    have hrest : Apart (before ++ c :: cs.takeWhile isNamePart) (cs.dropWhile isNamePart) :=
      apart_of_stopsRun hstop
    have hstep := (ih hrest).behind (clear_name hname hrun) rfl
      fun front hfront => scan_name hname hrun (hstop.of_prefix hfront)
    rwa [List.cons_append, List.takeWhile_append_dropWhile] at hstep
  | case6 pos done c cs hblank hdigit hname l hl ih =>
    obtain ⟨-, hdigit, hname⟩ := class_of_mark hl
    rw [← List.singleton_append]
    exact (ih (apart_singleton hdigit hname)).behind
      (clear_singleton (isLegible_of_mark hl) hdigit) rfl fun front _ => scan_mark hl
  | case7 pos done c cs hblank hdigit hname hl =>
    have hc : isLegible c = false := isLegible_eq_false_iff.mpr (by simp_all)
    exact scanPost_here (.character hc) rfl

/-! ## Whole texts -/

theorem Clear.legible (h : Clear before run rest) : ∀ c ∈ run, isLegible c = true := by
  intro c hc
  obtain ⟨front, back, rfl⟩ := List.append_of_mem hc
  by_contra hno
  exact h front (c :: back) _ rfl (by simp) (.character (by simpa using hno))

theorem toNat_lt_of_isLegible (h : isLegible c = true) : c.toNat < 128 := by
  by_contra hwide
  have hc : isLegible c = false := by
    have hcode := Nat.le_of_not_lt hwide
    exact isLegible_eq_false_iff.mpr ⟨sameCodes_blank.char c hcode, sameCodes_digit.char c hcode,
      sameCodes_nameStart.char c hcode, sameCodes_mark.char c hcode⟩
  simp [h] at hc

theorem length_encode_of_legible (h : ∀ c ∈ cs, isLegible c = true) :
    (encode cs).length = cs.length := by
  induction cs with
  | nil => rfl
  | cons c cs ih =>
    obtain ⟨hc, hcs⟩ := List.forall_mem_cons.mp h
    rw [encode_cons, utf8EncodeChar_of_ascii (toNat_lt_of_isLegible hc), List.length_append, ih hcs,
      List.length_singleton, List.length_cons]
    omega

theorem clear_of_tokenize {text : String} {s : TokenStream} (h : tokenize text = .ok s) :
    Clear [] text.toList [] := by
  have hpost : ScanPost [] text.toList 0 #[] (tokenize text) := scan_post apart_nil
  rwa [h] at hpost

theorem stops_of_tokenize {text : String} (h : tokenize text = .error err) :
    ∃ before after, text.toList = before ++ after ∧ (encode before).length = err.offset ∧
      Obstacle before after err.cause.message ∧ Clear [] before after ∧
      ∃ s, tokenize (String.ofList before) = .ok s := by
  have hpost : ScanPost [] text.toList 0 #[] (tokenize text) := scan_post apart_nil
  rw [h] at hpost
  obtain ⟨before, after, htext, hoffset, hobstacle, hclear, s, hs⟩ := hpost
  refine ⟨before, after, htext, ?_, by simpa using hobstacle, hclear, s, ?_⟩
  · rw [length_encode_of_legible hclear.legible, hoffset, Nat.zero_add]
  · rwa [tokenize, String.toList_ofList]

theorem exists_error_iff {text : String} : (∃ err, tokenize text = .error err) ↔
    ∃ before after word, text.toList = before ++ after ∧ Obstacle before after word := by
  constructor
  · rintro ⟨err, herr⟩
    obtain ⟨before, after, htext, -, hobstacle, -⟩ := stops_of_tokenize herr
    exact ⟨before, after, _, htext, hobstacle⟩
  · rintro ⟨before, after, word, htext, hobstacle⟩
    rcases hs : tokenize text with err | s
    · exact ⟨err, rfl⟩
    · refine absurd ?_ (clear_of_tokenize hs before after word htext hobstacle.ne_nil)
      simpa using hobstacle

/-- A text has no tokens exactly if there is an obstacle in it. The error, of the scanner and of the
reader, is at the first byte of the leftmost one, and the text in front of it has tokens. -/
theorem tokenize_stops_at_leftmost (text : String) :
    ((∃ err, tokenize text = .error err) ↔
        ∃ before after word, text.toList = before ++ after ∧ Obstacle before after word) ∧
      ∀ err, tokenize text = .error err →
        Expr.parse text = .error err ∧ (String.Pos.Raw.mk err.offset).IsValid text ∧
          ∃ before after, text.toList = before ++ after ∧ (encode before).length = err.offset ∧
            Obstacle before after err.cause.message ∧
            (∃ s, tokenize (String.ofList before) = .ok s) ∧
            ∀ before' after' word, text.toList = before' ++ after' →
              Obstacle before' after' word → err.offset ≤ (encode before').length := by
  refine ⟨exists_error_iff, ?_⟩
  intro err herr
  obtain ⟨before, after, htext, hoffset, hobstacle, hclear, hs⟩ := stops_of_tokenize herr
  refine ⟨?_, ?_, before, after, htext, hoffset, hobstacle, hs, ?_⟩
  · rw [Expr.parse, herr]
    rfl
  · rw [String.Pos.Raw.isValid_iff_exists_append]
    refine ⟨String.ofList before, String.ofList after, ?_, ?_⟩
    · rw [← String.ofList_append, ← htext, String.ofList_toList]
    · rw [String.Pos.Raw.ext_iff, String.byteIdx_rawEndPos, ← length_utf8, utf8_ofList, hoffset]
  · intro before' after' word htext' hobstacle'
    obtain ⟨more, rfl⟩ := hclear.isPrefix (htext'.symm.trans htext) hobstacle'
    rw [← hoffset, encode_append, List.length_append]
    exact Nat.le_add_right _ _

theorem tokenize_stops_at_wide_character :
    ∃ before after,
      "x99999999999999999999 (000000000000000000000007 é 18446744073709551616".toList =
        before ++ after ∧ (encode before).length = 48 ∧
      Obstacle before after "unexpected character 'é'" ∧
      ∃ s, tokenize (String.ofList before) = .ok s := by
  have herror : tokenize "x99999999999999999999 (000000000000000000000007 é 18446744073709551616" =
      .error ⟨48, .strayCharacter 'é'⟩ := by cbv
  obtain ⟨-, -, before, after, htext, hoffset, hobstacle, hs, -⟩ :=
    (tokenize_stops_at_leftmost _).2 _ herror
  exact ⟨before, after, htext, hoffset, hobstacle, hs⟩

end Arith64

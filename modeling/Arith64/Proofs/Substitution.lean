import Arith64.Proofs.Blanks
import Arith64.Proofs.Slots

/-!
# Another literal in its place

The digits of a literal, and the sign in front of them, can be replaced by any
others. The scanner decides about 64 bits and the reader about the signed half
of them. All that is around the literal is read as before.
-/

namespace Arith64

/-! ## Scanning around a literal -/

section Scanning

variable {pos stop : Nat} {done : Array Token} {c : Char} {cs run rest : List Char}
  {tokens : List Token} {t : Token} {p : Char → Bool}

theorem stopsRun_dropWhile_append (h : cs.dropWhile p ≠ []) :
    StopsRun p (cs.dropWhile p ++ rest) := by
  obtain ⟨d, ds, hd⟩ := List.exists_cons_of_ne_nil h
  have hstop := stopsRun_dropWhile p cs
  rw [hd] at hstop ⊢
  exact hstop

theorem eq_of_scan_nil {u : Token} (h : scan pos (done.push u) [] = .ok ⟨tokens ++ [t], stop⟩) :
    t = u := by
  rw [scan_nil, Except.ok.injEq, TokenStream.mk.injEq, Array.toList_push] at h
  exact (List.append_inj' h.1 rfl).2 |> List.singleton_inj.mp |>.symm

theorem scan_append (h : scan pos done cs = .ok ⟨tokens ++ [t], stop⟩) (ht : t.lexeme = .openParen) :
    scan pos done (cs ++ rest) = scan stop (tokens ++ [t]).toArray rest := by
  fun_induction scan pos done cs with
  | case1 pos done =>
    obtain ⟨hdone, rfl⟩ := TokenStream.mk.inj (Except.ok.inj h)
    rw [List.nil_append, ← hdone]
  | case2 pos done c cs hblank ih =>
    rw [List.cons_append, scan_blank hblank]
    exact ih h
  | case3 pos done c cs hblank hdigit token htoken ih =>
    obtain ⟨hsize, rfl⟩ := ofDigits_eq_ok_iff.mp htoken
    have hne : cs.dropWhile Char.isDigit ≠ [] := by
      intro hnil
      rw [hnil] at h
      simp [eq_of_scan_nil h] at ht
    have hrun : ∀ d ∈ cs.takeWhile Char.isDigit, d.isDigit = true :=
      fun _ hd => List.mem_takeWhile_imp hd
    rw [← List.takeWhile_append_dropWhile (p := Char.isDigit) (l := cs), List.cons_append,
      List.append_assoc, ← List.cons_append,
      scan_digits hdigit hrun (stopsRun_dropWhile_append hne) hsize]
    exact ih h
  | case4 => cases h
  | case5 pos done c cs hblank hdigit hname token ih =>
    have hne : cs.dropWhile isNamePart ≠ [] := by
      intro hnil
      rw [hnil] at h
      simp [eq_of_scan_nil h, token, Token.ofName] at ht
    have hrun : ∀ d ∈ cs.takeWhile isNamePart, isNamePart d = true :=
      fun _ hd => List.mem_takeWhile_imp hd
    rw [← List.takeWhile_append_dropWhile (p := isNamePart) (l := cs), List.cons_append,
      List.append_assoc, ← List.cons_append,
      scan_name hname hrun (stopsRun_dropWhile_append hne)]
    exact ih h
  | case6 pos done c cs hblank hdigit hname l hl ih =>
    rw [List.cons_append, scan_mark hl]
    exact ih h
  | case7 => cases h

/-- From any place on, the text has tokens with the lexemes of those that `s` has behind `done`. -/
def LexesElsewhere (done : Array Token) (s : TokenStream) (cs : List Char) : Prop :=
  ∀ pos' done', ∃ tokens tokens' stop', s.tokens = done.toList ++ tokens ∧
    scan pos' done' cs = .ok ⟨done'.toList ++ tokens', stop'⟩ ∧
    tokens'.map Token.lexeme = tokens.map Token.lexeme

theorem LexesElsewhere.push {s : TokenStream} {u : Token} (h : LexesElsewhere (done.push u) s rest)
    (hstep : ∀ pos' done', ∃ u', u'.lexeme = u.lexeme ∧
      scan pos' done' cs = scan u'.stop (done'.push u') rest) : LexesElsewhere done s cs := by
  intro pos' done'
  obtain ⟨u', hlexeme, hscan⟩ := hstep pos' done'
  obtain ⟨tokens, tokens', stop', hs, hrest, hlexemes⟩ := h u'.stop (done'.push u')
  refine ⟨u :: tokens, u' :: tokens', stop', ?_, ?_, ?_⟩
  · simpa using hs
  · simpa [hscan] using hrest
  · simp [hlexeme, hlexemes]

/-- Which lexemes a text has does not depend on what is in front of it. -/
theorem scan_elsewhere {s : TokenStream} (h : scan pos done cs = .ok s) :
    LexesElsewhere done s cs := by
  fun_induction scan pos done cs with
  | case1 pos done =>
    cases h
    intro pos' done'
    exact ⟨[], [], pos', by simp [scan_nil]⟩
  | case2 pos done c cs hblank ih =>
    intro pos' done'
    rw [scan_blank hblank]
    exact ih h (pos' + 1) done'
  | case3 pos done c cs hblank hdigit token htoken ih =>
    obtain ⟨hsize, rfl⟩ := ofDigits_eq_ok_iff.mp htoken
    have hrun : ∀ d ∈ cs.takeWhile Char.isDigit, d.isDigit = true :=
      fun _ hd => List.mem_takeWhile_imp hd
    refine (ih h).push fun pos' done' => ?_
    have hstep : scan pos' done' (c :: cs.takeWhile Char.isDigit ++ cs.dropWhile Char.isDigit) = _ :=
      scan_digits hdigit hrun (stopsRun_dropWhile Char.isDigit cs) hsize
    rw [List.cons_append, List.takeWhile_append_dropWhile] at hstep
    exact ⟨⟨_, pos', _⟩, rfl, hstep⟩
  | case4 => cases h
  | case5 pos done c cs hblank hdigit hname token ih =>
    have hrun : ∀ d ∈ cs.takeWhile isNamePart, isNamePart d = true :=
      fun _ hd => List.mem_takeWhile_imp hd
    refine (ih h).push fun pos' done' => ?_
    have hstep : scan pos' done' (c :: cs.takeWhile isNamePart ++ cs.dropWhile isNamePart) = _ :=
      scan_name hname hrun (stopsRun_dropWhile isNamePart cs)
    rw [List.cons_append, List.takeWhile_append_dropWhile] at hstep
    exact ⟨Token.ofName pos' _, rfl, hstep⟩
  | case6 pos done c cs hblank hdigit hname l hl ih =>
    exact (ih h).push fun pos' done' => ⟨⟨l, pos', pos' + 1⟩, rfl, scan_mark hl⟩
  | case7 => cases h

theorem scan_large (hc : c.isDigit = true) (hrun : ∀ d ∈ run, d.isDigit = true)
    (hrest : StopsRun Char.isDigit rest) (hsize : UInt64.size ≤ digitsValue (c :: run)) :
    scan pos done (c :: run ++ rest) =
      .error ⟨pos, .integerTooLarge (String.ofList (c :: run))⟩ := by
  have hblank : ¬ isBlank c = true := by
    intro h
    simp [(class_of_blank h).1] at hc
  rw [List.cons_append, scan, if_neg hblank, if_pos hc, takeWhile_run hrun hrest,
    ofDigits_eq_error_iff.mpr ⟨hsize, rfl⟩]

end Scanning

/-! ## Cutting a text between its tokens -/

section Cutting

variable {bytes xs ys : List UInt8} {pos : Nat} {ts us : List Token}

theorem LongestMatch.take (h : LongestMatch (xs ++ ys) 0 (ts ++ us))
    (hts : ∀ t ∈ ts, t.stop ≤ xs.length) (hus : ∀ u ∈ us, xs.length ≤ u.start) :
    LongestMatch xs 0 ts := by
  refine ⟨⟨?_, hts, ?_⟩, by simp, ?_, ?_, ?_⟩
  · exact fun t ht => h.placed.filled t (List.mem_append_left us ht)
  · exact (List.pairwise_append.mp h.placed.ordered).1
  · intro t ht
    have hspelled := h.spelled t (List.mem_append_left us ht)
    rwa [extract_append_of_le (hts t ht)] at hspelled
  · intro t ht b hb
    refine h.longest t (List.mem_append_left us ht) b ?_
    rwa [List.getElem?_append_left (List.getElem?_eq_some_iff.mp hb).1]
  · intro i hi hcovers b hb
    have hlt := (List.getElem?_eq_some_iff.mp hb).1
    refine h.blank i hi ?_ b (by rwa [List.getElem?_append_left hlt])
    intro t ht hcover
    rcases List.mem_append.mp ht with ht | hu
    · exact hcovers t ht hcover
    · have hbehind := hus t hu
      have hstart := hcover.1
      omega

theorem LongestMatch.drop (h : LongestMatch bytes 0 (ts ++ us)) (hts : ∀ t ∈ ts, t.stop ≤ pos)
    (hus : ∀ u ∈ us, pos ≤ u.start) : LongestMatch bytes pos us := by
  refine ⟨⟨?_, ?_, ?_⟩, hus, ?_, ?_, ?_⟩
  · exact fun u hu => h.placed.filled u (List.mem_append_right ts hu)
  · exact fun u hu => h.placed.inside u (List.mem_append_right ts hu)
  · exact (List.pairwise_append.mp h.placed.ordered).2.1
  · exact fun u hu => h.spelled u (List.mem_append_right ts hu)
  · exact fun u hu => h.longest u (List.mem_append_right ts hu)
  · intro i hi hcovers b hb
    refine h.blank i (Nat.zero_le i) ?_ b hb
    intro t ht hcover
    rcases List.mem_append.mp ht with ht | hu
    · have hstop := hts t ht
      have hinside := hcover.2
      omega
    · exact hcovers t hu hcover

theorem Placed.around_first {n : Nat} {t : Token} (h : Placed (ts ++ us) n) (ht : t ∈ us.head?) :
    (∀ t' ∈ ts, t'.stop ≤ t.start) ∧ ∀ u ∈ us, t.start ≤ u.start := by
  obtain ⟨-, hus, hordered⟩ := List.pairwise_append.mp h.ordered
  obtain ⟨us, rfl⟩ := List.head?_eq_some_iff.mp ht
  refine ⟨fun t' ht' => hordered t' ht' t List.mem_cons_self, ?_⟩
  intro u hu
  rcases List.mem_cons.mp hu with rfl | hu
  · exact Nat.le_refl _
  · have hfilled := h.filled t (by simp)
    have hbehind := (List.pairwise_cons.mp hus).1 u hu
    omega

theorem Placed.around_last {n : Nat} {t : Token} (h : Placed (ts ++ us) n) (ht : t ∈ ts.getLast?) :
    (∀ t' ∈ ts, t'.stop ≤ t.stop) ∧ ∀ u ∈ us, t.stop ≤ u.start := by
  obtain ⟨hts, -, hordered⟩ := List.pairwise_append.mp h.ordered
  obtain ⟨ts, rfl⟩ := List.getLast?_eq_some_iff.mp ht
  refine ⟨?_, fun u hu => hordered t (by simp) u hu⟩
  intro t' ht'
  rcases List.mem_append.mp ht' with ht' | ht'
  · have hfilled := h.filled t (by simp)
    have hfront := (List.pairwise_append.mp hts).2.2 t' ht' t (by simp)
    omega
  · rw [List.mem_singleton.mp ht']

end Cutting

/-! ## Scanning other digits -/

def signText (negative : Bool) : String := if negative then "-" else ""

section Digits

variable {pos stop : Nat} {done : Array Token} {digits rest : List Char} {b o a : String}
  {s : TokenStream} {before inside after : List Token} {first last t : Token} {negative : Bool}

theorem tokenize_parts (hs : tokenize (b ++ o ++ a) = .ok s)
    (hsplit : s.tokens = before ++ (inside ++ after)) (hfirst : first ∈ inside.head?)
    (hstart : first.start = b.utf8ByteSize) (hlast : last ∈ inside.getLast?)
    (hstop : last.stop = (b ++ o).utf8ByteSize) :
    tokenize b = .ok ⟨before, b.utf8ByteSize⟩ ∧
      (∃ stop, scan last.stop #[] a.toList = .ok ⟨after, stop⟩) ∧
      ∀ c ∈ (utf8 a).head?, last.lexeme.continues c = false := by
  obtain ⟨tokens, rfl, hmatch⟩ := tokenize_eq_ok_iff.mp hs
  simp only at hsplit
  subst hsplit
  have hhead : first ∈ (inside ++ after).head? := by simp_all
  have htail : last ∈ (before ++ inside).getLast? := by simp_all
  have hdrop : (utf8 (b ++ o ++ a)).drop last.stop = utf8 a := by
    rw [hstop, utf8_append, ← length_utf8, List.drop_left]
  have hfront := hmatch.placed.around_first hhead
  have hback := (List.append_assoc before inside after ▸ hmatch).placed.around_last htail
  refine ⟨?_, ?_, ?_⟩
  · rw [String.append_assoc, utf8_append] at hmatch
    rw [hstart, ← length_utf8] at hfront
    exact tokenize_eq_ok_iff.mpr ⟨_, rfl, hmatch.take hfront.1 hfront.2⟩
  · rw [← List.append_assoc] at hmatch
    refine ⟨_, (scan_eq_ok_iff (hdrop.trans (utf8_eq_encode a)) ?_).mpr
      ⟨after, rfl, hmatch.drop hback.1 hback.2⟩⟩
    exact hmatch.placed.inside last (List.mem_append_left _ (List.mem_of_getLast? htail))
  · intro c hc
    rw [← hdrop, List.head?_drop] at hc
    exact hmatch.longest last (by simp [List.mem_of_getLast? hlast]) c hc

theorem stopsRun_of_continues {m : Nat} (ht : t.lexeme = .integer m)
    (h : ∀ c ∈ (utf8 a).head?, t.lexeme.continues c = false) : StopsRun Char.isDigit a.toList := by
  intro c hc
  obtain ⟨cs, hcs⟩ := List.head?_eq_some_iff.mp hc
  obtain ⟨d, ds, hd⟩ := List.exists_cons_of_ne_nil (String.utf8EncodeChar_ne_nil (c := c))
  rw [utf8_eq_encode, hcs, encode_cons, hd, ht] at h
  rw [← sameCodes_digit.first hd]
  exact h d rfl

theorem scan_signText (hb : tokenize b = .ok ⟨before ++ [t], b.utf8ByteSize⟩)
    (ht : t.lexeme = .openParen) (negative : Bool) : ∃ sign : List Token,
      sign.map Token.lexeme = (if negative then [.minus] else []) ∧
      ∀ rest, scan 0 #[] ((b ++ signText negative).toList ++ rest) =
        scan (b ++ signText negative).utf8ByteSize ((before ++ [t]).toArray ++ sign) rest := by
  cases negative with
  | false =>
    refine ⟨[], rfl, fun rest => ?_⟩
    simpa [signText] using scan_append hb ht
  | true =>
    refine ⟨[⟨.minus, b.utf8ByteSize, b.utf8ByteSize + 1⟩], rfl, fun rest => ?_⟩
    rw [String.toList_append, List.append_assoc, scan_append hb ht, String.utf8ByteSize_append]
    exact scan_mark rfl

theorem scan_number (hne : digits ≠ []) (hdigits : ∀ d ∈ digits, d.isDigit = true)
    (hstop : StopsRun Char.isDigit rest) (hsize : digitsValue digits < UInt64.size) :
    ∃ number : Token, number.lexeme = .integer (digitsValue digits) ∧ number.start = pos ∧
      scan pos done (digits ++ rest) = scan number.stop (done.push number) rest := by
  obtain ⟨c, run, rfl⟩ := List.exists_cons_of_ne_nil hne
  obtain ⟨hc, hrun⟩ := List.forall_mem_cons.mp hdigits
  exact ⟨⟨_, pos, _⟩, rfl, rfl, scan_digits hc hrun hstop hsize⟩

section Written

variable (hb : tokenize b = .ok ⟨before ++ [t], b.utf8ByteSize⟩) (ht : t.lexeme = .openParen)
  (hstop : StopsRun Char.isDigit a.toList) (hne : digits ≠ [])
  (hdigits : ∀ d ∈ digits, d.isDigit = true)

include hb ht hstop hne hdigits

theorem tokenize_digits (negative : Bool) (ha : scan pos #[] a.toList = .ok ⟨after, stop⟩)
    (hsize : digitsValue digits < UInt64.size) :
    ∃ sign number after' stop',
      tokenize (b ++ signText negative ++ String.ofList digits ++ a) =
        .ok ⟨before ++ t :: (sign ++ number :: after'), stop'⟩ ∧
      sign.map Token.lexeme = (if negative then [.minus] else []) ∧
      number.lexeme = .integer (digitsValue digits) ∧
      number.start = (b ++ signText negative).utf8ByteSize ∧
      after'.map Token.lexeme = after.map Token.lexeme := by
  obtain ⟨sign, hsign, hscan⟩ := scan_signText hb ht negative
  obtain ⟨number, hlexeme, hstart, hnumber⟩ := scan_number hne hdigits hstop hsize
  obtain ⟨tokens, after', stop', htokens, hafter, hlexemes⟩ :=
    scan_elsewhere ha number.stop (((before ++ [t]).toArray ++ sign).push number)
  refine ⟨sign, number, after', stop', ?_, hsign, hlexeme, hstart, ?_⟩
  · rw [tokenize, String.append_assoc, String.toList_append, hscan, String.toList_append,
      String.toList_ofList, hnumber, hafter]
    simp
  · rw [hlexemes]
    exact congrArg _ htokens.symm

theorem tokenize_large (negative : Bool) (hsize : UInt64.size ≤ digitsValue digits) :
    tokenize (b ++ signText negative ++ String.ofList digits ++ a) =
      .error ⟨(b ++ signText negative).utf8ByteSize, .integerTooLarge (String.ofList digits)⟩ := by
  obtain ⟨sign, -, hscan⟩ := scan_signText hb ht negative
  obtain ⟨c, run, rfl⟩ := List.exists_cons_of_ne_nil hne
  obtain ⟨hc, hrun⟩ := List.forall_mem_cons.mp hdigits
  rw [tokenize, String.append_assoc, String.toList_append, hscan, String.toList_append,
    String.toList_ofList, scan_large hc hrun hstop hsize]

end Written

end Digits

/-! ## Reading other digits -/

namespace TokenStream

variable {sign after : List Token} {t number : Token} {stop m : Nat} {negative : Bool}

theorem readLiteral_out_of_range (ht : t.lexeme = .openParen)
    (hsign : sign.map Token.lexeme = if negative then [.minus] else [])
    (hnumber : number.lexeme = .integer m) (hrange : signedWord? negative m = none) :
    readLiteral ⟨t :: (sign ++ number :: after), stop⟩ =
      .error ⟨number.start, .literalOutOfRange⟩ := by
  have hdigit : (Lexeme.integer m == .minus) = false := rfl
  have hopen : expect ⟨t :: (sign ++ number :: after), stop⟩ .openParen =
      .ok ⟨sign ++ number :: after, stop⟩ :=
    (expect_eq_ok_iff (by simp)).mpr ((shows_singleton (by simp)).mpr ⟨ht, rfl⟩)
  rw [readLiteral, hopen, ok_bind]
  cases negative with
  | false =>
    obtain rfl := List.map_eq_nil_iff.mp hsign
    simp [front, hnumber, hdigit, hrange, refuse]
  | true =>
    obtain ⟨u, us, rfl, hu, hus⟩ := List.map_eq_cons_iff.mp hsign
    obtain rfl := List.map_eq_nil_iff.mp hus
    simp [front, rest, hu, hnumber, hrange, refuse]

end TokenStream

theorem signedWord?_eq_none_iff {negative : Bool} {m : Nat} :
    signedWord? negative m = none ↔ (if negative then 2 ^ 63 else 2 ^ 63 - 1) < m := by
  have hmin : Int64.minValue.toInt = -2 ^ 63 := by decide
  have hmax : Int64.maxValue.toInt = 2 ^ 63 - 1 := by decide
  cases negative <;> simp [signedWord?, hmin, hmax]

namespace Expr

section Parsing

variable {b a : String} {e : Expr} {k pos stop : Nat} {v w : Int64} {negative : Bool}
  {digits : List Char} {tf ta : List Token} {tn tp : Token} {back : List Lexeme}
  (hdepth : e.depth < nestingLimit) (hslot : Slot e k (tf.map Token.lexeme) back)
  (hn : tn.lexeme = .name "i64") (hp : tp.lexeme = .openParen)
  (hb : tokenize b = .ok ⟨tf ++ [tn] ++ [tp], b.utf8ByteSize⟩)
  (ha : scan pos #[] a.toList = .ok ⟨ta, stop⟩) (hstop : StopsRun Char.isDigit a.toList)
  (hne : digits ≠ []) (hdigits : ∀ d ∈ digits, d.isDigit = true)

include hdepth hslot hn hp hb ha hstop hne hdigits

theorem parse_digits_of_word (hclosed : ta.map Token.lexeme = .closeParen :: back)
    (hw : w.toInt = if negative then -(digitsValue digits : Int) else digitsValue digits) :
    parse (b ++ signText negative ++ String.ofList digits ++ a) = .ok (e.setLiteral k w) := by
  have hge := w.le_toInt
  have hlt := w.toInt_lt
  have hsize : digitsValue digits < UInt64.size := by
    simp only [UInt64.size]
    split at hw <;> omega
  obtain ⟨sign, number, after, stop', htokens, hsign, hnumber, -, hafter⟩ :=
    tokenize_digits hb hp hstop hne hdigits negative ha hsize
  refine parse_eq_ok_iff.mpr ⟨?_, _, htokens, ?_⟩
  · rwa [depth_setLiteral]
  · have hspells := hslot.spells hw
    simpa [literalLexemes, hn, hp, hsign, hnumber, hafter, hclosed] using hspells

theorem parse_digits_out_of_range (hsize : digitsValue digits < UInt64.size)
    (hrange : signedWord? negative (digitsValue digits) = none) :
    parse (b ++ signText negative ++ String.ofList digits ++ a) =
      .error ⟨(b ++ signText negative).utf8ByteSize, .literalOutOfRange⟩ := by
  obtain ⟨sign, number, after, stop', htokens, hsign, hnumber, hstart, -⟩ :=
    tokenize_digits hb hp hstop hne hdigits negative ha hsize
  have hliteral : TokenStream.readLiteral ⟨tp :: (sign ++ number :: after), stop'⟩ = _ :=
    TokenStream.readLiteral_out_of_range hp hsign hnumber hrange
  have hshows : TokenStream.Shows ⟨tf ++ [tn] ++ tp :: (sign ++ number :: after), stop'⟩
      (tf.map Token.lexeme) ⟨tn :: tp :: (sign ++ number :: after), stop'⟩ :=
    ⟨tf, rfl, by simp⟩
  have hread := hslot.readExpr_error hdepth hshows fun budget => by
    simp only [TokenStream.readExpr, TokenStream.front, TokenStream.rest, List.headD_cons,
      List.tail_cons, hn, if_true]
    exact hliteral
  rw [parse, htokens, ok_bind, hread, hstart]
  rfl

end Parsing

/-- Put other digits in the place of a literal, with a minus sign or without one. If they stand for
a word, the text is that of the expression with this word for the literal. If not, there is an error
at the first of them. -/
theorem parse_other_digits {text before old after : String} {s : TokenStream} {e : Expr}
    {k : Nat} (negative : Bool) {digits : List Char} (hs : tokenize text = .ok s)
    (he : parse text = .ok e) (hcut : before ++ old ++ after = text)
    (hplace : (literalPlaces none s.tokens)[k]? =
      some (before.utf8ByteSize, (before ++ old).utf8ByteSize))
    (hne : digits ≠ []) (hdigits : ∀ d ∈ digits, d.isDigit = true) :
    (literalPlaces none s.tokens).length = e.literals.length ∧
      if digitsValue digits ≤ if negative then 2 ^ 63 else 2 ^ 63 - 1 then
        ∃ w, w.toInt = (if negative then -(digitsValue digits : Int) else digitsValue digits) ∧
          parse (before ++ signText negative ++ String.ofList digits ++ after) =
            .ok (e.setLiteral k w)
      else
        ∃ err, parse (before ++ signText negative ++ String.ofList digits ++ after) = .error err ∧
          err.offset = (before ++ signText negative).utf8ByteSize ∧
          err.cause.message =
            if digitsValue digits < 2 ^ 64 then "integer literal out of range for i64"
            else "integer literal '" ++ String.ofList digits ++ "' is too large" := by
  subst hcut
  obtain ⟨hdepth, s, hs', hspells⟩ := parse_eq_ok_iff.mp he
  obtain rfl := Except.ok.inj (hs.symm.trans hs')
  obtain ⟨tb, ti, ta, front, back, first, last, m, ⟨hsplit, hslot, hopened, hclosed⟩, hfirst,
    hstart, hlast, hstop, hinteger⟩ := exists_around hspells hplace
  obtain ⟨hb, ⟨stop, ha⟩, hcontinues⟩ := tokenize_parts hs hsplit hfirst hstart hlast hstop
  have hruns := stopsRun_of_continues hinteger hcontinues
  obtain ⟨tf, tl, rfl, rfl, hopening⟩ := List.map_eq_append_iff.mp hopened
  obtain ⟨tn, tl, rfl, hn, hopening⟩ := List.map_eq_cons_iff.mp hopening
  obtain ⟨tp, tl, rfl, hp, hnil⟩ := List.map_eq_cons_iff.mp hopening
  obtain rfl := List.map_eq_nil_iff.mp hnil
  rw [← List.singleton_append, ← List.append_assoc] at hb
  constructor
  · rw [length_literalPlaces, hspells.countP_isInteger, length_literals]
  cases hword : signedWord? negative (digitsValue digits) with
  | some w =>
    have hfits : digitsValue digits ≤ if negative then 2 ^ 63 else 2 ^ 63 - 1 := by
      rw [← Nat.not_lt, ← signedWord?_eq_none_iff, hword]
      simp
    rw [if_pos hfits]
    have hw := signedWord?_eq_some_iff.mp hword
    exact ⟨w, hw, parse_digits_of_word hdepth hslot hn hp hb ha hruns hne hdigits hclosed hw⟩
  | none =>
    rw [if_neg (Nat.not_le.mpr (signedWord?_eq_none_iff.mp hword))]
    by_cases hsize : digitsValue digits < 2 ^ 64
    · refine ⟨_, parse_digits_out_of_range hdepth hslot hn hp hb ha hruns hne hdigits hsize hword,
        rfl, ?_⟩
      rw [if_pos hsize]
      rfl
    · have hlarge := tokenize_large hb hp hruns hne hdigits negative (Nat.le_of_not_lt hsize)
      refine ⟨_, by rw [parse, hlarge]; rfl, rfl, ?_⟩
      rw [if_neg hsize]
      rfl

theorem parse_smallest_word_elsewhere :
    ∃ w, w.toInt = -2 ^ 63 ∧
      parse "div(i64(7),i64( -09223372036854775808 ))" =
        .ok (.binary .div (.literal 7) (.literal w)) := by
  obtain ⟨s, hs, hplace⟩ : ∃ s, tokenize "div(i64(7),i64( - 5 ))" = .ok s ∧
      (literalPlaces none s.tokens)[1]? = some (16, 19) := ⟨_, by cbv, rfl⟩
  have he : parse "div(i64(7),i64( - 5 ))" =
      .ok (.binary .div (.literal 7) (.literal (-5))) := by
    cbv
  have hcut : "div(i64(7),i64( " ++ "- 5" ++ " ))" = "div(i64(7),i64( - 5 ))" := by decide
  obtain ⟨-, hread⟩ := parse_other_digits true hs he hcut hplace
    (List.cons_ne_nil '0' "9223372036854775808".toList) (by simp)
  exact hread

end Expr

end Arith64

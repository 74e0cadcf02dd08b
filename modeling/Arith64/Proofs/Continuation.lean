import Arith64.Proofs.Reading

/-!
# How lexemes can go on

What stands in front of an operand settles where the operand starts and what
has to come behind it. A spelling that starts with the same lexemes has its
operand at the same place, whatever it goes on with.
-/

namespace Arith64

/-! ## Operands -/

/-- The lexemes of an operand and those in front of it, in a spelling of a whole expression. -/
inductive Operand : Expr → List Lexeme → (front : List Lexeme) → Expr → List Lexeme → Prop
  | negate {e : Expr} {ls : List Lexeme} (h : Spells e ls) :
    Operand (.negate e) (.minus :: ls) [.minus] e ls
  | left {op : BinOp} {l r : Expr} {ls rs : List Lexeme} (hl : Spells l ls) (hr : Spells r rs) :
    Operand (.binary op l r) (op.opening ++ (ls ++ op.separator :: (rs ++ [.closeParen])))
      op.opening l ls
  | right {op : BinOp} {l r : Expr} {ls rs : List Lexeme} (hl : Spells l ls) (hr : Spells r rs) :
    Operand (.binary op l r) (op.opening ++ (ls ++ op.separator :: (rs ++ [.closeParen])))
      (op.opening ++ (ls ++ [op.separator])) r rs
  | group {e : Expr} {ls : List Lexeme} (h : Spells e ls) :
    Operand (.group e) (.openParen :: (ls ++ [.closeParen])) [.openParen] e ls

/-- Behind `place` lexemes of a spelling there starts an expression, `level` levels below the
whole one. -/
inductive Starts : Expr → List Lexeme → (level place : Nat) → Prop
  | whole {e : Expr} {ls : List Lexeme} (h : Spells e ls) : Starts e ls 0 0
  | inner {e e' : Expr} {ls ms front : List Lexeme} {level place : Nat}
    (h : Operand e ls front e' ms) (hstarts : Starts e' ms level place) :
    Starts e ls (level + 1) (front.length + place)

theorem BinOp.opening_ne_nil (op : BinOp) : op.opening ≠ [] := by
  cases op <;> simp [BinOp.opening, BinOp.callName?]

theorem BinOp.separator_ne_closeParen (op : BinOp) : op.separator ≠ .closeParen := by
  cases op <;> simp [BinOp.separator]

namespace Operand

variable {e e' e'' : Expr} {body ls ms front front' : List Lexeme}

theorem whole (h : Operand e body front e' ls) : Spells e body := by
  cases h with
  | negate h => exact .negate h
  | left hl hr => exact .binary hl hr
  | right hl hr => exact .binary hl hr
  | group h => exact .group h

theorem spells (h : Operand e body front e' ls) : Spells e' ls := by
  cases h <;> assumption

theorem split (h : Operand e body front e' ls) : ∃ more, body = front ++ (ls ++ more) := by
  cases h with
  | negate _ => exact ⟨[], by simp⟩
  | left _ _ => exact ⟨_, rfl⟩
  | right _ _ => exact ⟨[.closeParen], by simp⟩
  | group _ => exact ⟨[.closeParen], by simp⟩

theorem front_ne_nil (h : Operand e body front e' ls) : front ≠ [] := by
  cases h <;> simp [BinOp.opening_ne_nil]

theorem apart (h : Operand e body front e' ls) (h' : Operand e body front' e'' ms) :
    (front = front' ∧ e' = e'' ∧ ls = ms) ∨ front.length + ls.length < front'.length ∨
      front'.length + ms.length < front.length := by
  cases h with
  | negate _ =>
    cases h' with
    | negate _ => exact .inl ⟨rfl, rfl, rfl⟩
  | group _ =>
    generalize hbody : .openParen :: (ls ++ [.closeParen]) = body at h'
    cases h' with
    | group _ => exact .inl ⟨rfl, rfl, by simpa using hbody⟩
  | @left op l r _ rs hl hr =>
    generalize hbody : op.opening ++ (ls ++ op.separator :: (rs ++ [.closeParen])) = body at h'
    cases h' with
    | left hl' hr' =>
      obtain ⟨-, rfl, -⟩ := hl.append_inj hl' (List.append_cancel_left hbody)
      exact .inl ⟨rfl, rfl, rfl⟩
    | right hl' hr' =>
      obtain ⟨-, rfl, -⟩ := hl.append_inj hl' (List.append_cancel_left hbody)
      exact .inr (.inl (by simp))
  | @right op l r ms' _ hl hr =>
    generalize hbody : op.opening ++ (ms' ++ op.separator :: (ls ++ [.closeParen])) = body at h'
    cases h' with
    | left hl' hr' =>
      obtain ⟨-, rfl, -⟩ := hl.append_inj hl' (List.append_cancel_left hbody)
      exact .inr (.inr (by simp))
    | right hl' hr' =>
      obtain ⟨-, rfl, htail⟩ := hl.append_inj hl' (List.append_cancel_left hbody)
      exact .inl ⟨rfl, rfl, List.append_cancel_right (List.cons.inj htail).2⟩

end Operand

namespace Starts

variable {e : Expr} {ls : List Lexeme} {level level' place : Nat}

theorem place_lt (h : Starts e ls level place) : place < ls.length := by
  induction h with
  | whole h =>
    apply List.length_pos_iff.mpr
    cases h <;> simp [literalLexemes]
  | inner h _ ih =>
    obtain ⟨more, rfl⟩ := h.split
    simp only [List.length_append]
    omega

theorem level_unique (h : Starts e ls level place) (h' : Starts e ls level' place) :
    level = level' := by
  induction h generalizing level' with
  | whole _ =>
    generalize hplace : 0 = place at h'
    cases h' with
    | whole _ => rfl
    | inner h _ =>
      have hpos := List.length_pos_iff.mpr h.front_ne_nil
      omega
  | @inner e e' ls ms front level place h hstarts ih =>
    generalize hplace : front.length + place = place' at h'
    cases h' with
    | whole _ =>
      have hpos := List.length_pos_iff.mpr h.front_ne_nil
      omega
    | inner h' hstarts' =>
      have hlt := hstarts.place_lt
      have hlt' := hstarts'.place_lt
      obtain ⟨rfl, rfl, rfl⟩ | hbefore | hbehind := h.apart h'
      · obtain rfl := Nat.add_left_cancel hplace
        rw [ih hstarts']
      · omega
      · omega

end Starts

/-! ## Whole texts and their parts -/

/-- A whole text can start with these lexemes: the spelling of an expression, then the end. -/
def Viable (ls : List Lexeme) : Prop := ∃ e body, Spells e body ∧ ls <+: body ++ [.endOfText]

/-- A spelling can start with these lexemes. -/
def Inside (ls : List Lexeme) : Prop := ∃ e body, Spells e body ∧ ls <+: body

theorem Inside.viable {ls : List Lexeme} (h : Inside ls) : Viable ls := by
  obtain ⟨e, body, hbody, hprefix⟩ := h
  exact ⟨e, body, hbody, hprefix.trans (List.prefix_append _ _)⟩

theorem Inside.of_longer {ls ms : List Lexeme} (h : Inside ms) (hls : ls <+: ms) : Inside ls := by
  obtain ⟨e, body, hbody, hprefix⟩ := h
  exact ⟨e, body, hbody, hls.trans hprefix⟩

theorem Spells.inside {e : Expr} {ls : List Lexeme} (h : Spells e ls) : Inside ls :=
  ⟨e, ls, h, List.prefix_rfl⟩

theorem inside_nil : Inside [] :=
  (Spells.lexemes (.literal 0)).inside.of_longer List.nil_prefix

/-! ## The first lexemes of a spelling -/

theorem callName?_of_opening {op op' : BinOp} (h : op'.opening = op.opening) :
    op'.callName? = op.callName? := by
  cases op <;> cases op' <;> simp [BinOp.opening, BinOp.callName?] at h ⊢

variable {e l r : Expr} {op : BinOp} {ls rs body rest t : List Lexeme} {found : Lexeme}

theorem Spells.of_minus (h : Spells e body) (heq : .minus :: t = body ++ rest) :
    ∃ e' ls, e = .negate e' ∧ body = .minus :: ls ∧ Spells e' ls := by
  cases h with
  | literal _ => simp [literalLexemes] at heq
  | negate h => exact ⟨_, _, rfl, rfl, h⟩
  | @binary op => cases op <;> simp [BinOp.opening, BinOp.callName?] at heq
  | group _ => simp at heq

theorem Spells.of_marker (h : Spells e body) (heq : .name "i64" :: t = body ++ rest) :
    ∃ v negative m, signedWord? negative m = some v ∧ body = literalLexemes negative m := by
  cases h with
  | literal h => exact ⟨_, _, _, signedWord?_eq_some_iff.mpr h, rfl⟩
  | negate _ => simp at heq
  | @binary op => cases op <;> simp [BinOp.opening, BinOp.callName?] at heq
  | group _ => simp at heq

theorem Spells.of_opening (h : Spells e body) (heq : op.opening ++ t = body ++ rest) :
    ∃ l ls, Spells l ls ∧
      ((op.callName? = none ∧ e = .group l ∧ body = .openParen :: (ls ++ [.closeParen])) ∨
        ∃ op' r rs, op'.opening = op.opening ∧ Spells r rs ∧ e = .binary op' l r ∧
          body = op'.opening ++ (ls ++ op'.separator :: (rs ++ [.closeParen]))) := by
  cases h with
  | literal _ => cases op <;> simp [BinOp.opening, BinOp.callName?, literalLexemes] at heq
  | negate _ => cases op <;> simp [BinOp.opening, BinOp.callName?] at heq
  | @binary op' l r ls rs hl hr =>
    have hopening : op'.opening = op.opening := by
      cases op <;> cases op' <;> simp [BinOp.opening, BinOp.callName?] at heq ⊢
    exact ⟨l, ls, hl, .inr ⟨op', r, rs, hopening, hr, rfl, rfl⟩⟩
  | @group l ls hl =>
    have hnone : op.callName? = none := by
      cases op <;> simp [BinOp.opening, BinOp.callName?] at heq ⊢
    exact ⟨l, ls, hl, .inl ⟨hnone, rfl, rfl⟩⟩

theorem Spells.behind_left (h : Spells e body) (hl : Spells l ls)
    (heq : op.opening ++ (ls ++ t) = body ++ rest) :
    (op.callName? = none ∧ t = .closeParen :: rest ∧ e = .group l ∧
        body = .openParen :: (ls ++ [.closeParen])) ∨
      ∃ op' r rs, op'.opening = op.opening ∧ Spells r rs ∧
        t = op'.separator :: (rs ++ .closeParen :: rest) ∧ e = .binary op' l r ∧
        body = op'.opening ++ (ls ++ op'.separator :: (rs ++ [.closeParen])) := by
  obtain ⟨l', ls', hl', ⟨hnone, rfl, rfl⟩ | ⟨op', r, rs, hopening, hr, rfl, rfl⟩⟩ :=
    h.of_opening heq
  · rw [opening_of_none hnone] at heq
    have htail : ls ++ t = ls' ++ .closeParen :: rest := by simpa using heq
    obtain ⟨rfl, rfl, rfl⟩ := hl.append_inj hl' htail
    exact .inl ⟨hnone, rfl, rfl, rfl⟩
  · rw [← hopening] at heq
    have htail : ls ++ t = ls' ++ op'.separator :: (rs ++ .closeParen :: rest) := by
      simpa using heq
    obtain ⟨rfl, rfl, rfl⟩ := hl.append_inj hl' htail
    exact .inr ⟨op', r, rs, hopening, hr, rfl, rfl, rfl⟩

/-! ## In front of an operand -/

/-- These lexemes can stand in front of any operand, and in every spelling that they start they
stand in front of one. -/
structure Leads (front : List Lexeme) : Prop where
  complete {e : Expr} {ls : List Lexeme} (h : Spells e ls) :
    ∃ e' body, Operand e' body front e ls
  descend {e : Expr} {body rest t : List Lexeme} (h : Spells e body)
    (heq : front ++ t = body ++ rest) : ∃ e' ls, Operand e body front e' ls

theorem leads_minus : Leads [.minus] where
  complete h := ⟨_, _, .negate h⟩
  descend h heq := by
    obtain ⟨e', ls, rfl, rfl, hls⟩ := h.of_minus heq
    exact ⟨e', ls, .negate hls⟩

theorem leads_opening (op : BinOp) : Leads op.opening where
  complete h := ⟨.binary op _ _, _, .left h h⟩
  descend h heq := by
    obtain ⟨l, ls, hl, ⟨hnone, rfl, rfl⟩ | ⟨op', r, rs, hopening, hr, rfl, rfl⟩⟩ :=
      h.of_opening heq
    · rw [opening_of_none hnone]
      exact ⟨l, ls, .group hl⟩
    · rw [← hopening]
      exact ⟨l, ls, .left hl hr⟩

theorem leads_separator (op : BinOp) (hl : Spells l ls) :
    Leads (op.opening ++ (ls ++ [op.separator])) where
  complete h := ⟨.binary op _ _, _, .right hl h⟩
  descend {e body rest t} h heq := by
    have hleft : op.opening ++ (ls ++ op.separator :: t) = body ++ rest := by simpa using heq
    obtain ⟨-, hnext, -⟩ | ⟨op', r, rs, hopening, hr, hnext, rfl, rfl⟩ := h.behind_left hl hleft
    · exact absurd (List.cons.inj hnext).1 op.separator_ne_closeParen
    · rw [← hopening, (List.cons.inj hnext).1]
      exact ⟨r, rs, .right hl hr⟩

theorem Leads.inside {front : List Lexeme} (h : Leads front) (hls : Inside ls) :
    Inside (front ++ ls) := by
  obtain ⟨e, body, hbody, hprefix⟩ := hls
  obtain ⟨e', whole, hoperand⟩ := h.complete hbody
  obtain ⟨more, rfl⟩ := hoperand.split
  refine hoperand.whole.inside.of_longer ?_
  rw [List.prefix_append_right_inj]
  exact hprefix.trans (List.prefix_append _ _)

/-! ## What cannot come next -/

/-- Nothing that starts with a spelling goes on behind `front` with this lexeme. -/
def Refuses (front : List Lexeme) (found : Lexeme) : Prop :=
  ∀ {e : Expr} {body rest t : List Lexeme}, Spells e body → front ++ found :: t ≠ body ++ rest

/-- Behind `front` there starts an expression at this level, in everything that starts with a
spelling. -/
def Opens (level : Nat) (front : List Lexeme) : Prop :=
  ∀ {e : Expr} {body rest t : List Lexeme}, Spells e body → front ++ t = body ++ rest →
    Starts e body level front.length

theorem opens_nil : Opens 0 [] := fun h _ => .whole h

theorem Leads.refuses {front ls : List Lexeme} (h : Leads front) (hls : Refuses ls found) :
    Refuses (front ++ ls) found := by
  intro e body rest t hbody heq
  rw [List.append_assoc] at heq
  obtain ⟨e', ms, hoperand⟩ := h.descend hbody heq
  obtain ⟨more, rfl⟩ := hoperand.split
  rw [List.append_assoc, List.append_cancel_left_eq, List.append_assoc] at heq
  exact hls hoperand.spells heq

theorem Leads.opens {front ls : List Lexeme} {level : Nat} (h : Leads front)
    (hls : Opens level ls) : Opens (level + 1) (front ++ ls) := by
  intro e body rest t hbody heq
  rw [List.append_assoc] at heq
  obtain ⟨e', ms, hoperand⟩ := h.descend hbody heq
  obtain ⟨more, rfl⟩ := hoperand.split
  rw [List.append_assoc, List.append_cancel_left_eq, List.append_assoc] at heq
  rw [List.length_append]
  exact .inner hoperand (hls hoperand.spells heq)

/-! ## Places where only some lexemes can stand -/

theorem Spells.first (h : Spells e body) (heq : found :: t = body ++ rest) :
    found = .minus ∨ found = .openParen ∨
      ∃ f, found = .name f ∧ (f = "i64" ∨ ∃ op, BinOp.ofCallName? f = some op) := by
  cases h with
  | literal _ => exact .inr (.inr ⟨_, (List.cons.inj heq).1, .inl rfl⟩)
  | negate _ => exact .inl (List.cons.inj heq).1
  | @binary op =>
    cases hcall : op.callName? with
    | none =>
      rw [opening_of_none hcall] at heq
      exact .inr (.inl (List.cons.inj heq).1)
    | some f =>
      rw [opening_of_call hcall] at heq
      exact .inr (.inr ⟨f, (List.cons.inj heq).1, .inr ⟨op, ofCallName?_eq_some_iff.mpr hcall⟩⟩)
  | group _ => exact .inr (.inl (List.cons.inj heq).1)

theorem Spells.openParen_of_name {f : String} (h : Spells e body)
    (heq : .name f :: found :: t = body ++ rest) : found = .openParen := by
  cases h with
  | literal _ => exact (List.cons.inj (List.cons.inj heq).2).1
  | negate _ => cases heq
  | @binary op =>
    cases hcall : op.callName? with
    | none =>
      rw [opening_of_none hcall] at heq
      cases heq
    | some f =>
      rw [opening_of_call hcall] at heq
      exact (List.cons.inj (List.cons.inj heq).2).1
  | group _ => cases heq

theorem refuses_first (hminus : found ≠ .minus) (hopen : found ≠ .openParen)
    (hname : ∀ f, found = .name f → f ≠ "i64" ∧ BinOp.ofCallName? f = none) :
    Refuses [] found := by
  intro e body rest t h heq
  rcases h.first heq with rfl | rfl | ⟨f, rfl, rfl | ⟨op, hop⟩⟩
  · exact hminus rfl
  · exact hopen rfl
  · exact (hname _ rfl).1 rfl
  · rw [(hname f rfl).2] at hop
    cases hop

theorem refuses_name {f : String} (h : found ≠ .openParen) : Refuses [.name f] found :=
  fun hbody heq => h (hbody.openParen_of_name heq)

/-- The lexeme of a minus sign, where there is one. -/
def signLexemes (negative : Bool) : List Lexeme := if negative then [.minus] else []

theorem inside_digits {negative : Bool} {m : Nat} {v : Int64}
    (h : signedWord? negative m = some v) :
    Inside (.name "i64" :: .openParen :: (signLexemes negative ++ [.integer m])) := by
  have hspells : Spells (.literal v) (literalLexemes negative m) :=
    .literal (signedWord?_eq_some_iff.mp h)
  exact hspells.inside.of_longer ⟨[.closeParen], by simp [literalLexemes, signLexemes]⟩

theorem inside_sign (negative : Bool) :
    Inside (.name "i64" :: .openParen :: signLexemes negative) := by
  have hzero : signedWord? negative 0 = some 0 := by cases negative <;> rfl
  exact (inside_digits hzero).of_longer ⟨[.integer 0], by simp⟩

theorem refuses_digits {negative : Bool} (hsign : negative = false → found ≠ .minus)
    (hdigits : ∀ m, found = .integer m → signedWord? negative m = none) :
    Refuses (.name "i64" :: .openParen :: signLexemes negative) found := by
  intro e body rest t h heq
  obtain ⟨v, negative', m, hword, rfl⟩ := h.of_marker heq
  have hno : negative' = negative → found ≠ .integer m := by
    rintro rfl hfound
    rw [hdigits m hfound] at hword
    cases hword
  cases negative <;> cases negative' <;> simp_all [literalLexemes, signLexemes]

theorem refuses_literal_close {negative : Bool} {m : Nat} (h : found ≠ .closeParen) :
    Refuses (.name "i64" :: .openParen :: (signLexemes negative ++ [.integer m])) found := by
  intro e body rest t hbody heq
  obtain ⟨v, negative', m', hword, rfl⟩ := hbody.of_marker heq
  cases negative <;> cases negative' <;> simp_all [literalLexemes, signLexemes]

theorem refuses_separator (hl : Spells l ls) (hclose : op.callName? = none → found ≠ .closeParen)
    (hsep : ∀ op' : BinOp, op'.opening = op.opening → found ≠ op'.separator) :
    Refuses (op.opening ++ ls) found := by
  intro e body rest t h heq
  rw [List.append_assoc] at heq
  obtain ⟨hnone, hnext, -⟩ | ⟨op', r, rs, hopening, -, hnext, -⟩ := h.behind_left hl heq
  · exact hclose hnone (List.cons.inj hnext).1
  · exact hsep op' hopening (List.cons.inj hnext).1

theorem refuses_close (hl : Spells l ls) (hr : Spells r rs) (h : found ≠ .closeParen) :
    Refuses (op.opening ++ (ls ++ op.separator :: rs)) found := by
  intro e body rest t hbody heq
  have hleft : op.opening ++ (ls ++ op.separator :: (rs ++ found :: t)) = body ++ rest := by
    simpa using heq
  obtain ⟨-, hnext, -⟩ | ⟨op', r', rs', -, hr', hnext, -⟩ := hbody.behind_left hl hleft
  · exact op.separator_ne_closeParen (List.cons.inj hnext).1
  · obtain ⟨-, -, hend⟩ := hr.append_inj hr' (List.cons.inj hnext).2
    exact h (List.cons.inj hend).1

end Arith64

import Mathlib
import Arith64.Case.Basic
import Arith64.Proofs.Faults
import Arith64.Proofs.FirstError

/-!
# Where the nesting is too deep

A text of an expression that is too deep is read up to the first node below the
limit, a node before its operands and left before right. All that is in front of
that node is read as it would be in any other text.
-/

namespace Arith64

/-! ## Nodes by depth -/

namespace Expr

/-- The paths to all nodes, a node before its operands and left before right. -/
def preorder : Expr → List (List Turn)
  | literal _ => [[]]
  | negate e => [] :: e.preorder.map (.only :: ·)
  | binary _ l r => [] :: (l.preorder.map (.left :: ·) ++ r.preorder.map (.right :: ·))
  | group e => [] :: e.preorder.map (.only :: ·)

/-- The path to the first node, each before its operands, that is this deep. -/
def firstAtDepth? (depth : Nat) (e : Expr) : Option (List Turn) :=
  e.preorder.find? fun path => path.length == depth

variable {e l r : Expr} {op : BinOp} {depth : Nat} {path : List Turn}

theorem length_le_depth (h : path ∈ e.preorder) : path.length ≤ e.depth := by
  induction e generalizing path with
  | literal v => simp_all [preorder]
  | negate e ih =>
    simp only [preorder, List.mem_cons, List.mem_map] at h
    rcases h with rfl | ⟨path, h, rfl⟩
    · simp
    · simpa [depth] using ih h
  | binary op l r ihl ihr =>
    simp only [preorder, List.mem_cons, List.mem_append, List.mem_map] at h
    rcases h with rfl | ⟨path, h, rfl⟩ | ⟨path, h, rfl⟩
    · simp
    · simp [depth, ihl h]
    · simp [depth, ihr h]
  | group e ih =>
    simp only [preorder, List.mem_cons, List.mem_map] at h
    rcases h with rfl | ⟨path, h, rfl⟩
    · simp
    · simpa [depth] using ih h

theorem firstAtDepth?_eq_none (h : e.depth < depth) : e.firstAtDepth? depth = none := by
  unfold firstAtDepth?
  rw [List.find?_eq_none]
  intro path hpath
  have hle := length_le_depth hpath
  simp
  omega

theorem firstAtDepth?_zero (e : Expr) : e.firstAtDepth? 0 = some [] := by
  cases e <;> rfl

theorem firstAtDepth?_negate :
    (negate e).firstAtDepth? (depth + 1) = (e.firstAtDepth? depth).map (.only :: ·) := by
  simp [firstAtDepth?, preorder, List.find?_map]

theorem firstAtDepth?_group :
    (group e).firstAtDepth? (depth + 1) = (e.firstAtDepth? depth).map (.only :: ·) := by
  simp [firstAtDepth?, preorder, List.find?_map]

theorem firstAtDepth?_binary : (binary op l r).firstAtDepth? (depth + 1) =
    ((l.firstAtDepth? depth).map (.left :: ·)).or ((r.firstAtDepth? depth).map (.right :: ·)) := by
  simp [firstAtDepth?, preorder, List.find?_append, List.find?_map]

end Expr

/-! ## The lexemes of a node -/

/-- In these lexemes of an expression, `part` spells the node at the end of a path, and `front` is
what is in front of it. -/
inductive Part : Expr → List Lexeme → (path : List Turn) → (front : List Lexeme) →
    (node : Expr) → (part : List Lexeme) → Prop where
  | whole {e : Expr} {ls : List Lexeme} (h : Spells e ls) : Part e ls [] [] e ls
  | negate {e node : Expr} {ls front part : List Lexeme} {path : List Turn}
    (h : Part e ls path front node part) :
    Part (.negate e) (.minus :: ls) (.only :: path) (.minus :: front) node part
  | left {op : BinOp} {l r node : Expr} {ls rs front part : List Lexeme} {path : List Turn}
    (h : Part l ls path front node part) (hr : Spells r rs) :
    Part (.binary op l r) (op.opening ++ (ls ++ op.separator :: (rs ++ [.closeParen])))
      (.left :: path) (op.opening ++ front) node part
  | right {op : BinOp} {l r node : Expr} {ls rs front part : List Lexeme} {path : List Turn}
    (hl : Spells l ls) (h : Part r rs path front node part) :
    Part (.binary op l r) (op.opening ++ (ls ++ op.separator :: (rs ++ [.closeParen])))
      (.right :: path) (op.opening ++ (ls ++ op.separator :: front)) node part
  | group {e node : Expr} {ls front part : List Lexeme} {path : List Turn}
    (h : Part e ls path front node part) :
    Part (.group e) (.openParen :: (ls ++ [.closeParen])) (.only :: path) (.openParen :: front)
      node part

namespace Part

variable {e node : Expr} {ls front part : List Lexeme} {path : List Turn}

theorem at?_eq (h : Part e ls path front node part) : e.at? path = some node := by
  induction h with
  | whole _ => simp [Expr.at?]
  | negate _ ih => exact ih
  | left _ _ ih => exact ih
  | right _ _ ih => exact ih
  | group _ ih => exact ih

theorem split (h : Part e ls path front node part) : ∃ more, ls = front ++ (part ++ more) := by
  induction h with
  | whole _ => exact ⟨[], by simp⟩
  | negate _ ih =>
    obtain ⟨more, rfl⟩ := ih
    exact ⟨more, rfl⟩
  | @left op l r _ ls rs _ _ _ _ _ ih =>
    obtain ⟨more, rfl⟩ := ih
    exact ⟨more ++ op.separator :: (rs ++ [.closeParen]), by simp⟩
  | right _ _ ih =>
    obtain ⟨more, rfl⟩ := ih
    exact ⟨more ++ [.closeParen], by simp⟩
  | group _ ih =>
    obtain ⟨more, rfl⟩ := ih
    exact ⟨more ++ [.closeParen], by simp⟩

end Part

/-! ## The reader -/

namespace TokenStream

variable {s s' s0 s1 s2 : TokenStream} {budget : Nat} {e l r : Expr} {op : BinOp}
  {ls rs : List Lexeme} {err : SyntaxError}

theorem readExpr_negate_error (hfront : s.front.lexeme = .minus)
    (h : readExpr budget s.rest = .error err) : readExpr (budget + 1) s = .error err := by
  unfold readExpr
  simp only [hfront, h]
  rfl

theorem readExpr_left_error (hopen : s.Shows op.opening s0)
    (h : readExpr budget s0 = .error err) : readExpr (budget + 1) s = .error err := by
  unfold readExpr
  cases hcall : op.callName? with
  | none =>
    rw [opening_of_none hcall] at hopen
    obtain ⟨hfront, rfl⟩ := (shows_singleton (by simp)).mp hopen
    simp only [hfront, h]
    rfl
  | some name =>
    rw [opening_of_call hcall] at hopen
    obtain ⟨hfront, hparen⟩ := (shows_cons (by simp)).mp hopen
    have hbegin := (expect_eq_ok_iff (by simp)).mpr hparen
    simp only [hfront, callName_ne_marker hcall, if_false, ofCallName?_eq_some_iff.mpr hcall, hbegin,
      ok_bind, h]
    rfl

theorem readExpr_right_error (hopen : s.Shows op.opening s0)
    (hl : readExpr budget s0 = .ok (l, s1)) (hsep : s1.Shows [op.separator] s2)
    (h : readExpr budget s2 = .error err) : readExpr (budget + 1) s = .error err := by
  unfold readExpr
  cases hcall : op.callName? with
  | none =>
    rw [opening_of_none hcall] at hopen
    obtain ⟨hfront, rfl⟩ := (shows_singleton (by simp)).mp hopen
    obtain ⟨hs1, rfl⟩ := (shows_singleton op.separator_ne_endOfText).mp hsep
    have hop := ofInfix?_eq_some_iff.mpr ⟨hcall, hs1.symm⟩
    have hgoes : s1.front.lexeme ≠ .closeParen := by
      rw [hs1]
      exact op.separator_ne_closeParen
    simp only [hfront, hl, ok_bind, hgoes, if_false, hop, h]
    rfl
  | some name =>
    rw [opening_of_call hcall] at hopen
    rw [separator_of_call hcall] at hsep
    obtain ⟨hfront, hparen⟩ := (shows_cons (by simp)).mp hopen
    have hbegin := (expect_eq_ok_iff (by simp)).mpr hparen
    have hcomma := (expect_eq_ok_iff (by simp)).mpr hsep
    simp only [hfront, callName_ne_marker hcall, if_false, ofCallName?_eq_some_iff.mpr hcall, hbegin,
      ok_bind, hl, hcomma, h]
    rfl

/-- The reader stops at the first node of the expression that the budget is used up at. -/
def SinksAt (s : TokenStream) (budget : Nat) (e : Expr) (ls : List Lexeme) : Prop :=
  ∃ path front node part m, e.firstAtDepth? budget = some path ∧
    Part e ls path front node part ∧ s.Shows front m ∧
    readExpr budget s = .error ⟨m.front.start, .nestedTooDeeply⟩

theorem SinksAt.negate (hfront : s.front.lexeme = .minus) (h : s.rest.SinksAt budget e ls) :
    s.SinksAt (budget + 1) (.negate e) (.minus :: ls) := by
  obtain ⟨path, front, node, part, m, hfirst, hpart, hshows, hread⟩ := h
  refine ⟨_, _, node, part, m, ?_, .negate hpart, ?_, readExpr_negate_error hfront hread⟩
  · rw [Expr.firstAtDepth?_negate, hfirst]
    rfl
  · exact (shows_cons (by simp)).mpr ⟨hfront, hshows⟩

theorem SinksAt.group (hfront : s.front.lexeme = .openParen) (h : s.rest.SinksAt budget e ls) :
    s.SinksAt (budget + 1) (.group e) (.openParen :: (ls ++ [.closeParen])) := by
  obtain ⟨path, front, node, part, m, hfirst, hpart, hshows, hread⟩ := h
  have hopen : s.Shows (BinOp.opening .add) s.rest := (shows_singleton (by simp)).mpr ⟨hfront, rfl⟩
  refine ⟨_, _, node, part, m, ?_, .group hpart, ?_, readExpr_left_error hopen hread⟩
  · rw [Expr.firstAtDepth?_group, hfirst]
    rfl
  · exact (shows_cons (by simp)).mpr ⟨hfront, hshows⟩

theorem SinksAt.left (hopen : s.Shows op.opening s0) (h : s0.SinksAt budget l ls)
    (hr : Spells r rs) : s.SinksAt (budget + 1) (.binary op l r)
      (op.opening ++ (ls ++ op.separator :: (rs ++ [.closeParen]))) := by
  obtain ⟨path, front, node, part, m, hfirst, hpart, hshows, hread⟩ := h
  refine ⟨_, _, node, part, m, ?_, .left hpart hr, ?_, readExpr_left_error hopen hread⟩
  · rw [Expr.firstAtDepth?_binary, hfirst]
    rfl
  · exact shows_append.mpr ⟨s0, hopen, hshows⟩

theorem SinksAt.right (hopen : s.Shows op.opening s0) (hl : Spells l ls) (hdepth : l.depth < budget)
    (hshowsl : s0.Shows ls s1) (hsep : s1.Shows [op.separator] s2) (h : s2.SinksAt budget r rs) :
    s.SinksAt (budget + 1) (.binary op l r)
      (op.opening ++ (ls ++ op.separator :: (rs ++ [.closeParen]))) := by
  obtain ⟨path, front, node, part, m, hfirst, hpart, hshows, hread⟩ := h
  have hreadl := readExpr_of_spells hl hdepth hshowsl
  refine ⟨_, _, node, part, m, ?_, .right hl hpart, ?_, readExpr_right_error hopen hreadl hsep hread⟩
  · rw [Expr.firstAtDepth?_binary, Expr.firstAtDepth?_eq_none hdepth, hfirst]
    rfl
  · rw [← List.singleton_append]
    simp only [shows_append]
    exact ⟨s0, hopen, s1, hshowsl, s2, hsep, hshows⟩

theorem sinksAt_zero (h : Spells e ls) : s.SinksAt 0 e ls :=
  ⟨[], [], e, ls, s, e.firstAtDepth?_zero, .whole h, shows_nil.mpr rfl, rfl⟩

theorem sinksAt_of_spells (h : Spells e ls) (hdepth : budget ≤ e.depth) (hshows : s.Shows ls s') :
    s.SinksAt budget e ls := by
  induction h generalizing budget s s' with
  | literal hv =>
    obtain rfl : budget = 0 := Nat.le_zero.mp hdepth
    exact sinksAt_zero (.literal hv)
  | negate h ih =>
    rcases budget with _ | budget
    · exact sinksAt_zero (.negate h)
    · obtain ⟨hfront, hrest⟩ := (shows_cons (by simp)).mp hshows
      exact .negate hfront (ih (Nat.le_of_succ_le_succ hdepth) hrest)
  | @binary op l r ls rs hl hr ihl ihr =>
    rcases budget with _ | budget
    · exact sinksAt_zero (.binary hl hr)
    · rw [← List.singleton_append] at hshows
      simp only [shows_append] at hshows
      obtain ⟨s0, hopen, s1, hshowsl, s2, hsep, s3, hshowsr, -⟩ := hshows
      -- The right operand is read only if the left one is not too deep.
      by_cases hleft : l.depth < budget
      · have hright : budget ≤ r.depth := by
          simp only [Expr.depth] at hdepth
          omega
        exact .right hopen hl hleft hshowsl hsep (ihr hright hshowsr)
      · exact .left hopen (ihl (Nat.le_of_not_lt hleft) hshowsl) hr
  | group h ih =>
    rcases budget with _ | budget
    · exact sinksAt_zero (.group h)
    · rw [shows_cons (by simp), shows_append] at hshows
      obtain ⟨hfront, s0, hinner, -⟩ := hshows
      exact .group hfront (ih (Nat.le_of_succ_le_succ hdepth) hinner)

end TokenStream

/-! ## Whole texts -/

namespace Expr

theorem parse_sinks {t : Expr} {text : String} {s : TokenStream} (hdepth : nestingLimit ≤ t.depth)
    (hs : tokenize text = .ok s) (hspells : Spells t (s.tokens.map Token.lexeme)) :
    ∃ path front node part m, t.firstAtDepth? nestingLimit = some path ∧
      Part t (s.tokens.map Token.lexeme) path front node part ∧ s.Shows front m ∧
      parse text = .error ⟨m.front.start, .nestedTooDeeply⟩ := by
  obtain ⟨_, hshows, -⟩ := TokenStream.shows_all_iff.mpr (rfl : s.tokens.map Token.lexeme = _)
  obtain ⟨path, front, node, part, m, hfirst, hpart, hfront, hread⟩ :=
    TokenStream.sinksAt_of_spells hspells hdepth hshows
  refine ⟨path, front, node, part, m, hfirst, hpart, hfront, ?_⟩
  rw [parse, hs, ok_bind, hread]
  rfl

/-- A text of an expression that is too deep is refused where the first node at the limit is
spelled, and the expression has no test case, whatever its value is. -/
theorem parse_stops_at_limit {t : Expr} (hdepth : 512 ≤ t.depth) :
    (∀ text s, tokenize text = .ok s → Spells t (s.tokens.map Token.lexeme) →
      ∃ path node part before token after err,
        t.firstAtDepth? 512 = some path ∧ t.at? path = some node ∧
        s.toList = before ++ token :: after ∧
        Part t (s.tokens.map Token.lexeme) path (before.map Token.lexeme) node part ∧
        part <+: (token :: after).map Token.lexeme ∧
        parse text = .error err ∧ err.offset = token.start ∧
        err.cause.message = "expression nested too deeply") ∧
      ∃ offset, TestCase.ofTree t = .error (.parse offset "expression nested too deeply") := by
  constructor
  · intro text s hs hspells
    obtain ⟨path, front, node, part, m, hfirst, hpart, hshows, hparse⟩ :=
      parse_sinks hdepth hs hspells
    obtain ⟨before, after, hall, rfl⟩ := TokenStream.toList_of_shows hshows
    refine ⟨path, node, part, before, m.front, after, _, hfirst, hpart.at?_eq, hall, hpart, ?_,
      hparse, rfl, rfl⟩
    obtain ⟨more, hsplit⟩ := hpart.split
    have hlexemes := s.lexemes_eq
    rw [TokenStream.lexemes, hall, hsplit, List.map_append, List.append_assoc,
      List.append_cancel_left_eq] at hlexemes
    exact ⟨more ++ [.endOfText], by simp [hlexemes]⟩
  · obtain ⟨s, hs, hspells⟩ := spells_reference t
    obtain ⟨_, _, _, _, m, -, -, -, hparse⟩ := parse_sinks hdepth hs hspells
    refine ⟨m.front.start, ?_⟩
    rw [TestCase.ofTree, computeText, hparse]
    rfl

theorem parse_stops_at_deep_divisor :
    let t := binary .div (literal 7) (negate^[511] (literal 0))
    t.value = .error .divisionByZero ∧
      (∃ s path node part before token after err, tokenize t.reference = .ok s ∧
        t.firstAtDepth? 512 = some path ∧ t.at? path = some node ∧
        s.toList = before ++ token :: after ∧
        Part t (s.tokens.map Token.lexeme) path (before.map Token.lexeme) node part ∧
        parse t.reference = .error err ∧ err.offset = token.start) ∧
      ∃ offset, TestCase.ofTree t = .error (.parse offset "expression nested too deeply") := by
  intro t
  have hdepth : 512 ≤ t.depth := by decide +kernel
  obtain ⟨s, hs, hspells⟩ := spells_reference t
  obtain ⟨hlimit, hcase⟩ := parse_stops_at_limit hdepth
  obtain ⟨path, node, part, before, token, after, err, hfirst, hnode, hall, hpart, -, hparse,
    hoffset, -⟩ := hlimit _ s hs hspells
  exact ⟨by decide +kernel, ⟨s, path, node, part, before, token, after, err, hs, hfirst, hnode,
    hall, hpart, hparse, hoffset⟩, hcase⟩

end Expr

end Arith64

import Mathlib
import Arith64.Proofs.Occurrences
import Arith64.Proofs.TargetText
import Arith64.Reference.Text

/-!
# Both texts beside the tree

A reader can follow an expression through both of its texts. Every operator
shows in its own way exactly as often as there are nodes with it, and the
literals come from left to right. Nothing else in the texts looks like an
operator or a literal, also not where two pieces meet.
-/

namespace Arith64

/-! ## Beginnings of operands -/

/-- The text begins neither with a space nor with an operator that a space follows. -/
def StartsOperand (text : List Char) : Prop :=
  StopsRun (· == ' ') text ∧ ∀ op : BinOp, ¬ op.symbol.toList ++ [' '] <+: text

theorem startsOperand_cons {c : Char} {text : List Char}
    (h : c ∉ [' ', '+', '-', '*', '/', '%']) : StartsOperand (c :: text) := by
  simp only [List.mem_cons, List.not_mem_nil, or_false, not_or] at h
  obtain ⟨hspace, hplus, hminus, hstar, hslash, hpercent⟩ := h
  refine ⟨stopsRun_cons (by simpa using hspace), ?_⟩
  intro op hop
  cases op <;> simp [BinOp.symbol, List.cons_prefix_cons, eq_comm, *] at hop

theorem StartsOperand.minus {text : List Char} (h : StartsOperand text) :
    StartsOperand ('-' :: text) := by
  refine ⟨stopsRun_cons rfl, ?_⟩
  intro op hop
  -- a minus sign is an operator only in front of a space
  cases op <;> simp [BinOp.symbol, List.cons_prefix_cons] at hop
  obtain ⟨rest, rfl⟩ := hop
  have hspace := h.1 ' ' rfl
  cases hspace

theorem startsOperand_decimalWord (v : Int64) (rest : List Char) :
    StartsOperand ((decimalWord v).toList ++ rest) := by
  have hdigits : StartsOperand ((decimal v.toInt.natAbs).toList ++ rest) := by
    obtain ⟨c, cs, hdecimal, hdigit, -⟩ := decimal_toList_eq_cons v.toInt.natAbs
    rw [hdecimal]
    apply startsOperand_cons
    intro hc
    simp only [List.mem_cons, List.not_mem_nil, or_false] at hc
    rcases hc with rfl | rfl | rfl | rfl | rfl | rfl <;> cases hdigit
  by_cases hv : v.toInt < 0
  · rw [toList_decimalWord_of_neg hv]
    exact hdigits.minus
  · rw [decimalWord_of_nonneg (by omega)]
    exact hdigits

/-! ## Two dialects of one shape -/

namespace BinOp

/-- An operator between two spaces. -/
def spaced (op : BinOp) : String := " " ++ op.symbol ++ " "

/-- How an operator shows in the reference text. -/
def shown (op : BinOp) : String :=
  match op.callName? with
  | some name => name ++ "("
  | none => op.spaced

example : all.map shown = [" + ", " - ", " * ", "div(", "fmod(", "mulhi("] := by decide

theorem toList_spaced (op : BinOp) : op.spaced.toList = ' ' :: (op.symbol.toList ++ [' ']) := by
  simp [spaced]

end BinOp

/-- How literals are written, and what stands in front of the left operand and behind it. -/
structure Dialect where
  literal : Int64 → List Char
  opening : BinOp → List Char
  separator : BinOp → List Char
  literal_starts : ∀ v rest, StartsOperand (literal v ++ rest)
  opening_starts : ∀ op rest, StartsOperand (opening op ++ rest)

namespace Dialect

def text (d : Dialect) : Expr → List Char
  | .literal v => d.literal v
  | .negate e => '-' :: d.text e
  | .binary op l r => d.opening op ++ (d.text l ++ (d.separator op ++ (d.text r ++ [')'])))
  | .group e => '(' :: (d.text e ++ [')'])

def target : Dialect where
  literal v := (decimalWord v).toList
  opening _ := ['(']
  separator op := op.spaced.toList
  literal_starts := startsOperand_decimalWord
  opening_starts _ _ := startsOperand_cons (by decide)

def reference : Dialect where
  literal v := "i64(".toList ++ ((decimalWord v).toList ++ [')'])
  opening op := if op.callName?.isSome then op.shown.toList else ['(']
  separator op := if op.callName?.isSome then [',', ' '] else op.shown.toList
  literal_starts _ _ := startsOperand_cons (by decide)
  opening_starts op _ := by
    cases op <;> exact startsOperand_cons (by decide)

section Pieces

variable {op : BinOp} {name : String}

theorem reference_separator_of_none (h : op.callName? = none) :
    reference.separator op = op.spaced.toList := by
  simp [reference, BinOp.shown, h]

theorem reference_opening_of_some (h : op.callName? = some name) :
    reference.opening op = op.shown.toList := by
  simp [reference, h]

theorem reference_separator_of_some (h : op.callName? = some name) :
    reference.separator op = [',', ' '] := by
  simp [reference, h]

end Pieces

theorem text_target (e : Expr) : target.text e = e.target.toList := by
  induction e with
  | literal v => rfl
  | negate e ih => simp [text, Expr.target, ih]
  | binary op l r ihl ihr =>
    rw [text, ihl, ihr]
    simp [target, Expr.target, BinOp.spaced]
  | group e ih => simp [text, Expr.target, ih]

theorem text_reference (e : Expr) : reference.text e = e.reference.toList := by
  induction e with
  | literal v => simp [text, Expr.reference, reference]
  | negate e ih => simp [text, Expr.reference, ih]
  | binary op l r ihl ihr =>
    rw [text, ihl, ihr]
    cases hname : op.callName? <;>
      simp [reference, Expr.reference, BinOp.shown, BinOp.spaced, hname]
  | group e ih => simp [text, Expr.reference, ih]

variable {d : Dialect} (op : BinOp) (e l r : Expr) (rest : List Char)

theorem text_binary_append :
    d.text (.binary op l r) ++ rest =
      d.opening op ++ (d.text l ++ (d.separator op ++ (d.text r ++ ')' :: rest))) := by
  simp [text]

theorem text_group_append : d.text (.group e) ++ rest = '(' :: (d.text e ++ ')' :: rest) := by
  simp [text]

theorem text_starts : StartsOperand (d.text e ++ rest) := by
  induction e generalizing rest with
  | literal v => exact d.literal_starts v rest
  | negate e ih => exact (ih rest).minus
  | binary op l r ihl ihr =>
    rw [text_binary_append]
    exact d.opening_starts op _
  | group e ih => exact startsOperand_cons (by decide)

/-- A count that grows only by what stands around operands, in each case by a number of its own. -/
structure Weighs (d : Dialect) (count : List Char → Nat) (opening separator : BinOp → Nat) :
    Prop where
  literal : ∀ v rest, count (d.literal v ++ rest) = count rest
  mark : ∀ c ∈ ['-', '(', ')'], ∀ rest, count ([c] ++ rest) = count rest
  opening : ∀ op rest, count (d.opening op ++ rest) = opening op + count rest
  separator : ∀ op rest, StartsOperand rest →
    count (d.separator op ++ rest) = separator op + count rest

theorem Weighs.text {count : List Char → Nat} {opening separator : BinOp → Nat}
    (h : d.Weighs count opening separator) :
    count (d.text e ++ rest) =
      (e.operators.map fun op => opening op + separator op).sum + count rest := by
  have hmark {c : Char} (hc : c ∈ ['-', '(', ')']) (rest : List Char) :
      count (c :: rest) = count rest := h.mark c hc rest
  induction e generalizing rest with
  | literal v =>
    rw [Dialect.text, h.literal]
    simp [Expr.operators]
  | negate e ih =>
    rw [Dialect.text, List.cons_append, hmark (by decide), ih]
    rfl
  | binary op l r ihl ihr =>
    rw [text_binary_append, h.opening, ihl, h.separator op _ (text_starts r _), ihr,
      hmark (by decide), Expr.operators, List.map_cons, List.sum_cons, List.map_append,
      List.sum_append]
    omega
  | group e ih =>
    rw [text_group_append, hmark (by decide), ih, hmark (by decide)]
    rfl

theorem Weighs.whole {count : List Char → Nat} {opening separator : BinOp → Nat}
    (h : d.Weighs count opening separator) (hnil : count [] = 0) :
    count (d.text e) = (e.operators.map fun op => opening op + separator op).sum := by
  have htext := h.text e []
  rwa [List.append_nil, hnil, Nat.add_zero] at htext

end Dialect

/-! ## Operators between spaces -/

theorem weighs_spaces : Dialect.target.Weighs (List.count ' ') (fun _ => 0) (fun _ => 2) where
  literal v rest := by
    have hnone := List.count_eq_zero.mpr (not_mem_decimalWord (v := v) (c := ' ') rfl (by decide))
    rw [Dialect.target, List.count_append, hnone, Nat.zero_add]
  mark c hc rest := by
    have hspace : c ≠ ' ' := by
      rintro rfl
      simp at hc
    exact List.count_cons_of_ne hspace
  opening op rest := by
    rw [Nat.zero_add]
    rfl
  separator op rest _ := by
    rw [List.count_append]
    cases op <;> rfl

section Operators

variable {op op' : BinOp} {rest : List Char} {width : Nat}

theorem quiet_space (h : StartsOperand rest) : Quiet op.spaced.toList [' '] rest := by
  refine ⟨?_, trivial⟩
  rw [op.toList_spaced, List.cons_prefix_cons]
  exact fun hop => h.2 op hop.2

theorem quiet_symbol (h : StartsOperand rest) :
    Quiet op.spaced.toList (op'.symbol.toList ++ [' ']) rest := by
  have hsymbol : ' ' ∉ op'.symbol.toList := by cases op' <;> decide
  refine Quiet.append ?_ (quiet_space h)
  rw [op.toList_spaced]
  exact quiet_of_not_mem hsymbol

theorem quiet_comma (h : StartsOperand rest) : Quiet op.spaced.toList [',', ' '] rest := by
  refine ⟨?_, quiet_space h⟩
  rw [op.toList_spaced, List.cons_prefix_cons]
  rintro ⟨hcomma, -⟩
  cases hcomma

theorem found_spaced (hwidth : width < op.spaced.length) (h : StartsOperand rest) :
    found op.spaced width (op'.spaced.toList ++ rest) =
      (if op' = op then 1 else 0) + found op.spaced width rest := by
  by_cases hop : op' = op
  · subst hop
    rw [if_pos rfl, found_pattern op'.toList_spaced (quiet_symbol h) hwidth]
  · rw [if_neg hop, Nat.zero_add]
    apply found_quiet
    rw [op'.toList_spaced]
    refine ⟨?_, quiet_symbol h⟩
    rintro ⟨more, htext⟩
    rw [op.toList_spaced] at htext
    simp only [List.cons_append, List.append_assoc, List.nil_append, List.cons.injEq,
      true_and] at htext
    exact hop (Expr.symbol_append_inj htext).1.symm

theorem weighs_spaced (hwidth : width < op.spaced.length) :
    Dialect.target.Weighs (found op.spaced width) (fun _ => 0)
      (fun op' => if op' = op then 1 else 0) where
  literal v rest := found_of_not_mem op.toList_spaced (not_mem_decimalWord rfl (by decide))
  mark c hc rest := by
    refine found_of_not_mem op.toList_spaced ?_
    rw [List.mem_singleton]
    rintro rfl
    simp at hc
  opening op' rest := by
    rw [Nat.zero_add]
    exact found_of_not_mem op.toList_spaced (by simp [Dialect.target])
  separator op' rest h := found_spaced hwidth h

/-! ## Operators in the reference text -/

theorem not_mem_reference_literal {c : Char} (v : Int64) (hdigit : c.isDigit = false)
    (hc : c ∉ ['-', 'i', '6', '4', '(', ')']) : c ∉ Dialect.reference.literal v := by
  simp only [List.mem_cons, List.not_mem_nil, or_false, not_or] at hc
  have hword := not_mem_decimalWord (v := v) hdigit hc.1
  simp [Dialect.reference, hword, hc]

theorem weighs_shown_of_spaced (hname : op.callName? = none) (hwidth : width < op.shown.length) :
    Dialect.reference.Weighs (found op.shown width) (fun _ => 0)
      (fun op' => if op' = op then 1 else 0) := by
  have hshown : op.shown = op.spaced := by rw [BinOp.shown, hname]
  rw [hshown] at hwidth ⊢
  constructor
  case literal =>
    intro v rest
    exact found_of_not_mem op.toList_spaced (not_mem_reference_literal v rfl (by decide))
  case mark => exact (weighs_spaced hwidth).mark
  case opening =>
    intro op' rest
    have hspace : ' ' ∉ Dialect.reference.opening op' := by cases op' <;> decide
    rw [Nat.zero_add]
    exact found_of_not_mem op.toList_spaced hspace
  case separator =>
    intro op' rest h
    cases hname' : op'.callName? with
    | none =>
      rw [Dialect.reference_separator_of_none hname']
      exact found_spaced hwidth h
    | some name =>
      have hop : op' ≠ op := by
        rintro rfl
        rw [hname] at hname'
        cases hname'
      rw [Dialect.reference_separator_of_some hname', if_neg hop, Nat.zero_add]
      exact found_quiet (quiet_comma h)

theorem BinOp.exists_lead {name : String} (h : op.callName? = some name) :
    ∃ c tail, op.shown.toList = c :: tail ∧ c ∉ tail ∧ c ∉ ['-', '(', ')'] ∧
      (∀ v, c ∉ Dialect.reference.literal v) ∧ ∀ op', c ∉ Dialect.reference.separator op' := by
  cases op with
  | add => cases h
  | sub => cases h
  | mul => cases h
  | div =>
    refine ⟨'d', "iv(".toList, rfl, by decide, by decide, ?_, ?_⟩
    · exact fun v => not_mem_reference_literal v rfl (by decide)
    · rintro (_ | _) <;> decide
  | rem =>
    refine ⟨'f', "mod(".toList, rfl, by decide, by decide, ?_, ?_⟩
    · exact fun v => not_mem_reference_literal v rfl (by decide)
    · rintro (_ | _) <;> decide
  | highMul =>
    refine ⟨'m', "ulhi(".toList, rfl, by decide, by decide, ?_, ?_⟩
    · exact fun v => not_mem_reference_literal v rfl (by decide)
    · rintro (_ | _) <;> decide

theorem quiet_opening {name : String} (h : op.callName? = some name) (hop : op' ≠ op) :
    Quiet op.shown.toList (Dialect.reference.opening op') rest := by
  cases op <;> simp [BinOp.callName?] at h <;> cases op' <;>
    simp [Quiet, BinOp.shown, BinOp.callName?, Dialect.reference, List.cons_prefix_cons] at hop ⊢

theorem weighs_shown_of_call {name : String} (hname : op.callName? = some name)
    (hwidth : width < op.shown.length) :
    Dialect.reference.Weighs (found op.shown width) (fun op' => if op' = op then 1 else 0)
      (fun _ => 0) := by
  obtain ⟨c, tail, hshown, htail, hmark, hliteral, hseparator⟩ := BinOp.exists_lead hname
  constructor
  case literal =>
    intro v rest
    exact found_of_not_mem hshown (hliteral v)
  case mark =>
    intro d hd rest
    refine found_of_not_mem hshown ?_
    rw [List.mem_singleton]
    rintro rfl
    exact hmark hd
  case opening =>
    intro op' rest
    by_cases hop : op' = op
    · subst hop
      have hquiet : Quiet op'.shown.toList tail rest := by
        rw [hshown]
        exact quiet_of_not_mem htail
      rw [Dialect.reference_opening_of_some hname, if_pos rfl, found_pattern hshown hquiet hwidth]
    · rw [if_neg hop, Nat.zero_add]
      exact found_quiet (quiet_opening hname hop)
  case separator =>
    intro op' rest _
    rw [Nat.zero_add]
    exact found_of_not_mem hshown (hseparator op')

/-! ## Counts -/

theorem sum_map_ite_eq_count (ops : List BinOp) (op : BinOp) :
    (ops.map fun op' => if op' = op then 1 else 0).sum = ops.count op := by
  induction ops with
  | nil => rfl
  | cons op' ops ih =>
    rw [List.map_cons, List.sum_cons, ih, List.count_cons, Nat.add_comm]
    simp only [beq_iff_eq]

theorem count_space_target (e : Expr) : e.target.toList.count ' ' = 2 * e.binaryCount := by
  rw [← Dialect.text_target, weighs_spaces.whole e rfl]
  simp [Expr.binaryCount, Nat.mul_comm]

theorem found_target (e : Expr) (hwidth : width < op.spaced.length) :
    found op.spaced width e.target.toList = e.operators.count op := by
  rw [← Dialect.text_target, (weighs_spaced hwidth).whole e rfl]
  simp only [Nat.zero_add, sum_map_ite_eq_count]

theorem found_reference (e : Expr) (hwidth : width < op.shown.length) :
    found op.shown width e.reference.toList = e.operators.count op := by
  rw [← Dialect.text_reference]
  cases hname : op.callName? with
  | none =>
    rw [(weighs_shown_of_spaced hname hwidth).whole e rfl]
    simp only [Nat.zero_add, sum_map_ite_eq_count]
  | some name =>
    rw [(weighs_shown_of_call hname hwidth).whole e rfl]
    simp only [Nat.add_zero, sum_map_ite_eq_count]

end Operators

/-! ## Literals -/

namespace Expr

theorem digitRuns_target (e : Expr) :
    digitRuns e.target.toList = e.literals.map fun v => decimal v.toInt.natAbs := by
  rw [← Dialect.text_target]
  induction e with
  | literal v => exact digitRuns_decimalWord v
  | negate e ih => rw [Dialect.text, digitRuns_cons (by decide), ih, literals]
  | binary op l r ihl ihr =>
    have htext : Dialect.target.text (binary op l r) = '(' :: (Dialect.target.text l ++
        ' ' :: (op.symbol.toList ++ ' ' :: (Dialect.target.text r ++ [')']))) := by
      simp [Dialect.text, Dialect.target, op.toList_spaced]
    have hsymbol : digitRuns op.symbol.toList = [] := by cases op <;> rfl
    rw [htext, digitRuns_cons (by decide), digitRuns_append_cons (by decide),
      digitRuns_append_cons (by decide), digitRuns_append_cons (by decide), ihl, hsymbol, ihr,
      literals, List.map_append]
    simp [digitRuns_eq_nil]
  | group e ih =>
    rw [Dialect.text, digitRuns_cons (by decide), digitRuns_append_cons (by decide), ih, literals]
    simp [digitRuns_eq_nil]

theorem quiet_marker_opening (op : BinOp) (rest : List Char) :
    Quiet "i64(".toList (Dialect.reference.opening op) rest := by
  cases op <;>
    simp [Quiet, BinOp.shown, BinOp.callName?, Dialect.reference, List.cons_prefix_cons]

theorem enclosed_text (e : Expr) (rest : List Char) :
    enclosed "i64(" ')' (Dialect.reference.text e ++ rest) =
      e.literals.map decimalWord ++ enclosed "i64(" ')' rest := by
  have hpattern : "i64(".toList = 'i' :: "64(".toList := rfl
  have hskip {front : List Char} (h : 'i' ∉ front) (rest : List Char) :
      enclosed "i64(" ')' (front ++ rest) = enclosed "i64(" ')' rest :=
    enclosed_quiet (quiet_of_not_mem h)
  have hmark {c : Char} (h : 'i' ∉ [c]) (rest : List Char) :
      enclosed "i64(" ')' (c :: rest) = enclosed "i64(" ')' rest := hskip h rest
  induction e generalizing rest with
  | literal v =>
    have htext : Dialect.reference.text (literal v) ++ rest =
        "i64(".toList ++ ((decimalWord v).toList ++ ')' :: rest) := by
      simp [Dialect.text, Dialect.reference]
    have hclosing : ')' ∉ (decimalWord v).toList := not_mem_decimalWord rfl (by decide)
    have hletter : 'i' ∉ (decimalWord v).toList := not_mem_decimalWord rfl (by decide)
    rw [htext, enclosed_pattern hpattern (quiet_of_not_mem (by decide)) hclosing,
      hskip hletter, hmark (by decide), String.ofList_toList]
    rfl
  | negate e ih =>
    rw [Dialect.text, List.cons_append, hmark (by decide), ih, literals]
  | binary op l r ihl ihr =>
    have hseparator : 'i' ∉ Dialect.reference.separator op := by cases op <;> decide
    rw [Dialect.text_binary_append, enclosed_quiet (quiet_marker_opening op _), ihl,
      hskip hseparator, ihr, hmark (by decide), literals, List.map_append, List.append_assoc]
  | group e ih =>
    rw [Dialect.text_group_append, hmark (by decide), ih, hmark (by decide), literals]

theorem enclosed_reference (e : Expr) :
    enclosed "i64(" ')' e.reference.toList = e.literals.map decimalWord := by
  have htext := enclosed_text e []
  rw [List.append_nil, Dialect.text_reference] at htext
  rw [htext]
  exact List.append_nil _

/-- Both texts show the operators and the literals of the tree and nothing else of this kind. The
occurrences that are counted do not overlap, so it makes no difference how they are looked for. -/
theorem texts_show_tree (e : Expr) :
    e.target.toList.count ' ' = 2 * e.binaryCount ∧
      (∀ op : BinOp, occurrences op.spaced e.target.toList = e.operators.count op ∧
        occurrencesApart op.spaced e.target.toList = e.operators.count op) ∧
      digitRuns e.target.toList = e.literals.map (fun v => decimal v.toInt.natAbs) ∧
      (∀ op : BinOp, occurrences op.shown e.reference.toList = e.operators.count op ∧
        occurrencesApart op.shown e.reference.toList = e.operators.count op) ∧
      enclosed "i64(" ')' e.reference.toList = e.literals.map decimalWord := by
  refine ⟨count_space_target e, ?_, digitRuns_target e, ?_, enclosed_reference e⟩
  · intro op
    have hlength : 0 < op.spaced.length := by cases op <;> decide
    exact ⟨found_target e hlength, found_target e (Nat.sub_lt hlength Nat.one_pos)⟩
  · intro op
    have hlength : 0 < op.shown.length := by cases op <;> decide
    exact ⟨found_reference e hlength, found_reference e (Nat.sub_lt hlength Nat.one_pos)⟩

end Expr

end Arith64

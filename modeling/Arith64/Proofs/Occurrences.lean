import Mathlib
import Arith64.Proofs.Decimal

/-!
# What can be found in a text

Occurrences of a pattern, all of them or only those that do not overlap, the
texts between an opening and the next closing character, and the runs of
digits. A part of a text in which no occurrence begins can be left out, however
the text goes on behind it.
-/

namespace Arith64

/-! ## Occurrences -/

/-- What stands behind each occurrence of a pattern that is found from left to right. Once one has
begun, no other is looked for in the next `width` places, of which `pass` are still to come. -/
def behindEach (pattern : List Char) (width : Nat) : (pass : Nat) → List Char → List (List Char)
  | _, [] => []
  | pass + 1, _ :: text => behindEach pattern width pass text
  | 0, c :: text =>
    if pattern <+: c :: text then
      (c :: text).drop pattern.length :: behindEach pattern width width text
    else
      behindEach pattern width 0 text

/-- How often a pattern is found, if `width` places are passed over once an occurrence begins. -/
def found (pattern : String) (width : Nat) (text : List Char) : Nat :=
  (behindEach pattern.toList width 0 text).length

/-- The number of places where a pattern begins. -/
def occurrences (pattern : String) (text : List Char) : Nat := found pattern 0 text

/-- The number of occurrences when each is looked for behind the end of the one before. -/
def occurrencesApart (pattern : String) (text : List Char) : Nat :=
  found pattern (pattern.length - 1) text

example : occurrences "aa" "aaaa".toList = 3 ∧ occurrencesApart "aa" "aaaa".toList = 2 := by decide

/-- The text in front of a character, if there is one. -/
def upTo? (closing : Char) (text : List Char) : Option String :=
  if closing ∈ text then some (String.ofList (text.takeWhile (· != closing))) else none

/-- The texts between an occurrence of `opening` and the next `closing`, from left to right. -/
def enclosed (opening : String) (closing : Char) (text : List Char) : List String :=
  (behindEach opening.toList 0 0 text).filterMap (upTo? closing)

/-- No occurrence of the pattern begins in `front`, with `rest` behind it. -/
def Quiet (pattern : List Char) : (front rest : List Char) → Prop
  | [], _ => True
  | c :: front, rest => ¬ pattern <+: c :: (front ++ rest) ∧ Quiet pattern front rest

section Places

variable {pattern front back rest tail : List Char} {c : Char} {width pass : Nat}

theorem Quiet.append (hfront : Quiet pattern front (back ++ rest))
    (hback : Quiet pattern back rest) : Quiet pattern (front ++ back) rest := by
  induction front with
  | nil => exact hback
  | cons c front ih =>
    rw [List.cons_append]
    refine ⟨?_, ih hfront.2⟩
    rw [List.append_assoc]
    exact hfront.1

theorem quiet_of_not_mem (h : c ∉ front) : Quiet (c :: tail) front rest := by
  induction front with
  | nil => trivial
  | cons d front ih =>
    rw [List.mem_cons, not_or] at h
    refine ⟨?_, ih h.2⟩
    rw [List.cons_prefix_cons]
    exact fun hprefix => h.1 hprefix.1

theorem behindEach_quiet (h : Quiet pattern front rest) (hpass : pass ≤ front.length) :
    behindEach pattern width pass (front ++ rest) = behindEach pattern width 0 rest := by
  induction front generalizing pass with
  | nil =>
    obtain rfl : pass = 0 := Nat.le_zero.mp hpass
    rfl
  | cons c front ih =>
    cases pass with
    | zero =>
      rw [List.cons_append, behindEach, if_neg h.1]
      exact ih h.2 (Nat.zero_le _)
    | succ pass =>
      rw [List.cons_append, behindEach]
      exact ih h.2 (Nat.le_of_succ_le_succ hpass)

theorem behindEach_pattern (hpattern : pattern = c :: tail) (h : Quiet pattern tail rest)
    (hwidth : width < pattern.length) :
    behindEach pattern width 0 (pattern ++ rest) = rest :: behindEach pattern width 0 rest := by
  subst hpattern
  have hfound : c :: tail <+: c :: (tail ++ rest) := List.prefix_append (c :: tail) rest
  have hpass : width ≤ tail.length := Nat.le_of_lt_succ hwidth
  rw [List.cons_append, behindEach, if_pos hfound, behindEach_quiet h hpass, ← List.cons_append,
    List.drop_left]

end Places

section Found

variable {pattern : String} {front rest tail : List Char} {c closing : Char} {width : Nat}

theorem found_quiet (h : Quiet pattern.toList front rest) :
    found pattern width (front ++ rest) = found pattern width rest := by
  rw [found, behindEach_quiet h (Nat.zero_le _), found]

theorem found_of_not_mem (hpattern : pattern.toList = c :: tail) (h : c ∉ front) :
    found pattern width (front ++ rest) = found pattern width rest := by
  apply found_quiet
  rw [hpattern]
  exact quiet_of_not_mem h

theorem found_pattern (hpattern : pattern.toList = c :: tail)
    (h : Quiet pattern.toList tail rest) (hwidth : width < pattern.length) :
    found pattern width (pattern.toList ++ rest) = 1 + found pattern width rest := by
  rw [← String.length_toList] at hwidth
  rw [found, behindEach_pattern hpattern h hwidth, List.length_cons, Nat.add_comm, found]

theorem enclosed_quiet (h : Quiet pattern.toList front rest) :
    enclosed pattern closing (front ++ rest) = enclosed pattern closing rest := by
  rw [enclosed, behindEach_quiet h (Nat.zero_le _), enclosed]

theorem upTo?_append (h : closing ∉ front) :
    upTo? closing (front ++ closing :: rest) = some (String.ofList front) := by
  have hrun : ∀ c ∈ front, (c != closing) = true := by
    intro c hc
    rw [bne_iff_ne]
    rintro rfl
    exact h hc
  have hstop : StopsRun (· != closing) (closing :: rest) := stopsRun_cons (by simp)
  rw [upTo?, if_pos (by simp), takeWhile_run hrun hstop]

theorem enclosed_pattern (hpattern : pattern.toList = c :: tail)
    (h : Quiet pattern.toList tail (front ++ closing :: rest)) (hclosing : closing ∉ front) :
    enclosed pattern closing (pattern.toList ++ (front ++ closing :: rest)) =
      String.ofList front :: enclosed pattern closing (front ++ closing :: rest) := by
  have hwidth : 0 < pattern.toList.length := by simp [hpattern]
  rw [enclosed, behindEach_pattern hpattern h hwidth, List.filterMap_cons_some (upTo?_append hclosing),
    enclosed]

end Found

example : enclosed "i64(" ')' "mulhi(i64(5), -i64(-6))".toList = ["5", "-6"] := by decide

/-! ## Runs of digits -/

/-- The longest runs of digits, from left to right. -/
def digitRuns (text : List Char) : List String :=
  ((text.splitOnP (!·.isDigit)).filter (· ≠ [])).map String.ofList

section Digits

variable {xs ys : List Char} {c : Char}

theorem digitRuns_append_cons (hc : c.isDigit = false) :
    digitRuns (xs ++ c :: ys) = digitRuns xs ++ digitRuns ys := by
  unfold digitRuns
  rw [List.splitOnP_append_cons xs ys (by rw [hc]; rfl), List.filter_append, List.map_append]

theorem digitRuns_cons (hc : c.isDigit = false) : digitRuns (c :: ys) = digitRuns ys := by
  rw [← List.nil_append (c :: ys), digitRuns_append_cons hc]
  rfl

theorem digitRuns_eq_nil (h : ∀ c ∈ xs, c.isDigit = false) : digitRuns xs = [] := by
  induction xs with
  | nil => rfl
  | cons c xs ih =>
    rw [List.forall_mem_cons] at h
    rw [digitRuns_cons h.1, ih h.2]

theorem digitRuns_decimal (n : Nat) : digitRuns (decimal n).toList = [decimal n] := by
  obtain ⟨c, cs, hdigits, -, -⟩ := decimal_toList_eq_cons n
  have hall : ∀ c ∈ (decimal n).toList, (!c.isDigit) = false := by
    intro c hc
    rw [isDigit_of_mem_decimal hc]
    rfl
  rw [digitRuns, List.splitOnP_eq_singleton hall]
  simp [hdigits, ← String.toList_inj]

theorem digitRuns_decimalWord (v : Int64) :
    digitRuns (decimalWord v).toList = [decimal v.toInt.natAbs] := by
  by_cases hv : v.toInt < 0
  · rw [toList_decimalWord_of_neg hv, digitRuns_cons (by decide), digitRuns_decimal]
  · rw [decimalWord_of_nonneg (by omega), digitRuns_decimal]

end Digits

/-- A sign or a space ends a run, and several of them in a row begin none. -/
example : digitRuns "(-12 - --7)".toList = ["12", "7"] := by decide

end Arith64

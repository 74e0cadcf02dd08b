import Arith64.Text.Decimal

/-!
# Decimals inside a longer text

The digits of a number are a run that ends where the text goes on with anything
else, so a decimal can be cut off the front of a text in one way only.
-/

namespace Arith64

/-! ## Runs -/

/-- A text that does not go on with a character of the class `p`. -/
def StopsRun (p : Char → Bool) (text : List Char) : Prop := ∀ c ∈ text.head?, p c = false

theorem stopsRun_nil (p : Char → Bool) : StopsRun p [] := by
  simp [StopsRun]

theorem stopsRun_cons {p : Char → Bool} {c : Char} {text : List Char} (h : p c = false) :
    StopsRun p (c :: text) := by
  simp [StopsRun, h]

theorem stopsRun_dropWhile (p : Char → Bool) (text : List Char) :
    StopsRun p (text.dropWhile p) := by
  intro c hc
  have hstop := List.head?_dropWhile_not p text
  rwa [Option.mem_def.mp hc] at hstop

theorem StopsRun.of_prefix {p : Char → Bool} {front text : List Char} (h : StopsRun p text)
    (hfront : front <+: text) : StopsRun p front := by
  obtain ⟨more, rfl⟩ := hfront
  intro c hc
  apply h c
  rw [List.head?_append, Option.mem_def.mp hc]
  rfl

theorem takeWhile_run {p : Char → Bool} {run rest : List Char} (hrun : ∀ c ∈ run, p c = true)
    (hrest : StopsRun p rest) : (run ++ rest).takeWhile p = run := by
  rw [List.takeWhile_append_of_pos hrun]
  cases rest with
  | nil => simp
  | cons c rest => simp [hrest c rfl]

theorem dropWhile_run {p : Char → Bool} {run rest : List Char} (hrun : ∀ c ∈ run, p c = true)
    (hrest : StopsRun p rest) : (run ++ rest).dropWhile p = rest := by
  rw [List.dropWhile_append_of_pos hrun]
  cases rest with
  | nil => rfl
  | cons c rest => simp [hrest c rfl]

theorem run_append_inj {p : Char → Bool} {xs ys r s : List Char} (hxs : ∀ c ∈ xs, p c = true)
    (hys : ∀ c ∈ ys, p c = true) (hr : StopsRun p r) (hs : StopsRun p s)
    (h : xs ++ r = ys ++ s) : xs = ys ∧ r = s := by
  constructor
  · rw [← takeWhile_run hxs hr, h, takeWhile_run hys hs]
  · rw [← dropWhile_run hxs hr, h, dropWhile_run hys hs]

/-! ## Natural numbers -/

theorem isDigit_of_mem_decimal {n : Nat} {c : Char} (h : c ∈ (decimal n).toList) :
    c.isDigit = true := by
  rw [decimal, String.toList_ofList] at h
  exact Nat.isDigit_of_mem_toDigits (by omega) (by omega) h

theorem decimal_toList_eq_cons (n : Nat) :
    ∃ c cs, (decimal n).toList = c :: cs ∧ c.isDigit = true ∧ ∀ d ∈ cs, d.isDigit = true := by
  cases h : (decimal n).toList with
  | nil =>
    rw [decimal, String.toList_ofList] at h
    exact absurd h Nat.toDigits_ne_nil
  | cons c cs =>
    have hall : ∀ d ∈ c :: cs, d.isDigit = true := by
      intro d hd
      rw [← h] at hd
      exact isDigit_of_mem_decimal hd
    exact ⟨c, cs, rfl, hall c List.mem_cons_self, fun d hd => hall d (List.mem_cons_of_mem c hd)⟩

theorem decimal_append_ne_cons {n : Nat} {c : Char} {r s : List Char} (hc : c.isDigit = false) :
    (decimal n).toList ++ r ≠ c :: s := by
  obtain ⟨d, ds, hd, hdigit, -⟩ := decimal_toList_eq_cons n
  rw [hd]
  rintro ⟨rfl, -⟩
  rw [hc] at hdigit
  cases hdigit

theorem decimal_append_inj {m n : Nat} {r s : List Char} (hr : StopsRun Char.isDigit r)
    (hs : StopsRun Char.isDigit s) (h : (decimal m).toList ++ r = (decimal n).toList ++ s) :
    m = n ∧ r = s := by
  obtain ⟨hdigits, hrest⟩ := run_append_inj (fun _ => isDigit_of_mem_decimal)
    (fun _ => isDigit_of_mem_decimal) hr hs h
  refine ⟨?_, hrest⟩
  rw [← digitsValue_decimal m, ← digitsValue_decimal n, hdigits]

/-! ## Words -/

theorem decimalWord_of_nonneg {v : Int64} (h : 0 ≤ v.toInt) :
    decimalWord v = decimal v.toInt.natAbs := by
  rw [decimalWord, decimalInt, if_neg (by omega)]

theorem decimalWord_of_neg {v : Int64} (h : v.toInt < 0) :
    decimalWord v = "-" ++ decimal v.toInt.natAbs := by
  rw [decimalWord, decimalInt, if_pos h]

theorem toList_decimalWord_of_neg {v : Int64} (h : v.toInt < 0) :
    (decimalWord v).toList = '-' :: (decimal v.toInt.natAbs).toList := by
  rw [decimalWord_of_neg h, String.toList_append]
  rfl

theorem isDigit_or_minus_of_mem_decimalWord {v : Int64} {c : Char}
    (h : c ∈ (decimalWord v).toList) : c.isDigit = true ∨ c = '-' := by
  by_cases hv : v.toInt < 0
  · rw [toList_decimalWord_of_neg hv, List.mem_cons] at h
    exact h.symm.imp_left isDigit_of_mem_decimal
  · rw [decimalWord_of_nonneg (by omega)] at h
    exact .inl (isDigit_of_mem_decimal h)

theorem not_mem_decimalWord {v : Int64} {c : Char} (hdigit : c.isDigit = false) (hminus : c ≠ '-') :
    c ∉ (decimalWord v).toList := by
  intro h
  rcases isDigit_or_minus_of_mem_decimalWord h with hc | hc
  · rw [hdigit] at hc
    cases hc
  · exact hminus hc

theorem decimalWord_append_inj {v w : Int64} {r s : List Char} (hr : StopsRun Char.isDigit r)
    (hs : StopsRun Char.isDigit s)
    (h : (decimalWord v).toList ++ r = (decimalWord w).toList ++ s) : v = w ∧ r = s := by
  by_cases hv : v.toInt < 0 <;> by_cases hw : w.toInt < 0
  · rw [toList_decimalWord_of_neg hv, toList_decimalWord_of_neg hw] at h
    obtain ⟨habs, hrest⟩ := decimal_append_inj hr hs (List.cons.inj h).2
    exact ⟨Int64.toInt_inj.mp (by omega), hrest⟩
  · rw [toList_decimalWord_of_neg hv, decimalWord_of_nonneg (by omega)] at h
    exact absurd h.symm (decimal_append_ne_cons (by decide))
  · rw [toList_decimalWord_of_neg hw, decimalWord_of_nonneg (by omega)] at h
    exact absurd h (decimal_append_ne_cons (by decide))
  · rw [decimalWord_of_nonneg (by omega), decimalWord_of_nonneg (by omega)] at h
    obtain ⟨habs, hrest⟩ := decimal_append_inj hr hs h
    exact ⟨Int64.toInt_inj.mp (by omega), hrest⟩

theorem natAbs_toInt_lt (v : Int64) : v.toInt.natAbs < UInt64.size := by
  have hle := v.toInt_lt
  have hge := v.le_toInt
  simp only [UInt64.size]
  omega

end Arith64

import Arith64.Case.Corpus
import Arith64.Proofs.Decimal
import Arith64.Proofs.Searching

/-!
# Reading emitted texts back

The texts of a case hold nothing that would end a string or a line. So what an
emission says of a case can be read off the front of any longer text, and what
is emitted one case after another can be read back case by case.
-/

namespace Arith64

/-! ## Plain texts -/

/-- Printable ASCII that stands for itself between quotes. -/
def isPlain (c : Char) : Bool := ' ' ≤ c && c ≤ '~' && c != '"' && c != '\\'

def Plain (text : String) : Prop := text.toList.all isPlain

theorem plain_append {s t : String} : Plain (s ++ t) ↔ Plain s ∧ Plain t := by
  simp [Plain]

theorem Plain.isPlain_of_mem {text : String} (h : Plain text) {c : Char} (hc : c ∈ text.toList) :
    isPlain c = true :=
  List.all_eq_true.mp h c hc

theorem isPlain_of_isDigit {c : Char} (h : c.isDigit = true) : isPlain c = true := by
  have hquote : c ≠ '"' := by rintro rfl; cases h
  have hslash : c ≠ '\\' := by rintro rfl; cases h
  simp only [Char.isDigit, ge_iff_le, Bool.and_eq_true, decide_eq_true_eq] at h
  simp only [isPlain, Bool.and_eq_true, decide_eq_true_eq, bne_iff_ne, ne_eq]
  refine ⟨⟨⟨?_, ?_⟩, hquote⟩, hslash⟩
  · exact UInt32.le_trans (by decide) h.1
  · exact UInt32.le_trans h.2 (by decide)

theorem plain_decimal (n : Nat) : Plain (decimal n) :=
  List.all_eq_true.mpr fun _ hc => isPlain_of_isDigit (isDigit_of_mem_decimal hc)

theorem plain_decimalWord (v : Int64) : Plain (decimalWord v) := by
  by_cases hv : v.toInt < 0
  · rw [decimalWord_of_neg hv, plain_append]
    exact ⟨rfl, plain_decimal _⟩
  · rw [decimalWord_of_nonneg (by omega)]
    exact plain_decimal _

theorem BinOp.plain_symbol (op : BinOp) : Plain op.symbol := by
  cases op <;> rfl

theorem BinOp.plain_callName {op : BinOp} {name : String} (h : op.callName? = some name) :
    Plain name := by
  cases op <;> cases h <;> rfl

theorem Expr.plain_target (e : Expr) : Plain e.target := by
  induction e with
  | literal v => exact plain_decimalWord v
  | negate e ih =>
    rw [target, plain_append]
    exact ⟨rfl, ih⟩
  | binary op l r ihl ihr =>
    simp only [target, plain_append]
    exact ⟨⟨⟨⟨⟨⟨rfl, ihl⟩, rfl⟩, op.plain_symbol⟩, rfl⟩, ihr⟩, rfl⟩
  | group e ih =>
    simp only [target, plain_append]
    exact ⟨⟨rfl, ih⟩, rfl⟩

theorem Expr.plain_reference (e : Expr) : Plain e.reference := by
  induction e with
  | literal v =>
    simp only [reference, plain_append]
    exact ⟨⟨rfl, plain_decimalWord v⟩, rfl⟩
  | negate e ih =>
    rw [reference, plain_append]
    exact ⟨rfl, ih⟩
  | binary op l r ihl ihr =>
    cases hname : op.callName? with
    | some name =>
      simp only [reference, hname, plain_append]
      exact ⟨⟨⟨⟨⟨op.plain_callName hname, rfl⟩, ihl⟩, rfl⟩, ihr⟩, rfl⟩
    | none =>
      simp only [reference, hname, plain_append]
      exact ⟨⟨⟨⟨⟨⟨rfl, ihl⟩, rfl⟩, op.plain_symbol⟩, rfl⟩, ihr⟩, rfl⟩
  | group e ih =>
    simp only [reference, plain_append]
    exact ⟨⟨rfl, ih⟩, rfl⟩

theorem escape_of_isPlain {c : Char} (h : isPlain c = true) : Json.escape c = [c] := by
  have hspace : ' ' ≤ c := by
    simp only [isPlain, Bool.and_eq_true, decide_eq_true_eq] at h
    exact h.1.1.1
  unfold Json.escape
  split
  case h_8 => rw [if_neg (Char.not_lt.mpr hspace)]
  all_goals cases h

theorem Plain.quoted {text : String} (h : Plain text) :
    Json.quoted text = "\"" ++ text ++ "\"" := by
  have hsame : text.toList.flatMap Json.escape = text.toList.flatMap fun c => [c] := by
    apply List.flatMap_congr
    intro c hc
    exact escape_of_isPlain (h.isPlain_of_mem hc)
  rw [Json.quoted, hsame, List.flatMap_singleton', String.ofList_toList]

theorem Plain.append_inj {s t : String} (hs : Plain s) (ht : Plain t) {r r' : List Char}
    (hr : StopsRun isPlain r) (hr' : StopsRun isPlain r') (h : s.toList ++ r = t.toList ++ r') :
    s = t ∧ r = r' := by
  obtain ⟨htext, hrest⟩ := run_append_inj (fun _ => hs.isPlain_of_mem)
    (fun _ => ht.isPlain_of_mem) hr hr' h
  exact ⟨String.toList_inj.mp htext, hrest⟩

theorem Plain.newline_not_mem {text : String} (h : Plain text) : '\n' ∉ text.toList := by
  intro hc
  have hplain := h.isPlain_of_mem hc
  cases hplain

/-! ## Lines -/

/-- Some number of lines, each of them ended. -/
def HasLines (n : Nat) (text : String) : Prop :=
  ∃ lines : List String, lines.length = n ∧ (∀ line ∈ lines, '\n' ∉ line.toList) ∧
    text = String.join (lines.map (· ++ "\n"))

theorem hasLines_one {text : String} (line : String) (htext : text.toList = line.toList ++ ['\n'])
    (h : '\n' ∉ line.toList) : HasLines 1 text := by
  refine ⟨[line], rfl, by simpa using h, ?_⟩
  apply String.toList_inj.mp
  simpa using htext

theorem HasLines.append {m n : Nat} {s t : String} (hs : HasLines m s) (ht : HasLines n t) :
    HasLines (m + n) (s ++ t) := by
  obtain ⟨xs, rfl, hxs, rfl⟩ := hs
  obtain ⟨ys, rfl, hys, rfl⟩ := ht
  refine ⟨xs ++ ys, List.length_append, ?_, ?_⟩
  · intro line hline
    exact (List.mem_append.mp hline).elim (hxs line) (hys line)
  · rw [List.map_append, String.join_append]

/-! ## One case -/

namespace TestCase

/-- A case of a given expression, or one that was found by drawing. -/
inductive Made : TestCase → Prop
  | ofTree {tree : Expr} {c : TestCase} (h : TestCase.ofTree tree = .ok c) : Made c
  | drawn {σ : Type} [RandomSource σ] {o : CaseOptions} {s : σ} {c : TestCase}
    (h : (o.drawCase s).1 = .ok c) : Made c

theorem tree_of_ofTree {e : Expr} {c : TestCase} (h : TestCase.ofTree e = .ok c) :
    c.target = e.target ∧ c.reference = e.reference := by
  unfold TestCase.ofTree at h
  obtain ⟨v, -, h⟩ := bind_eq_ok_iff.mp h
  cases h
  exact ⟨rfl, rfl⟩

variable {c d : TestCase}

theorem Made.exists_tree (h : c.Made) :
    ∃ e : Expr, c.target = e.target ∧ c.reference = e.reference := by
  cases h with
  | ofTree h => exact ⟨_, tree_of_ofTree h⟩
  | drawn h =>
    obtain ⟨-, k, -, v, -, rfl⟩ := CaseOptions.drawCase_found h
    exact ⟨_, rfl, rfl⟩

theorem Made.plain_target (h : c.Made) : Plain c.target := by
  obtain ⟨e, htarget, -⟩ := h.exists_tree
  rw [htarget]
  exact e.plain_target

theorem Made.plain_reference (h : c.Made) : Plain c.reference := by
  obtain ⟨e, -, hreference⟩ := h.exists_tree
  rw [hreference]
  exact e.plain_reference

theorem Made.hasLines_template (h : c.Made) : HasLines 2 c.template := by
  have hword := (plain_decimalWord c.expected).newline_not_mem
  have htarget := h.plain_target.newline_not_mem
  have hfirst : HasLines 1 ("    print(\"" ++ decimalWord c.expected ++ " = \")\n") := by
    apply hasLines_one ("    print(\"" ++ decimalWord c.expected ++ " = \")")
    · simp
    · simp [hword]
  have hsecond : HasLines 1 ("    println(unparseInt(" ++ c.target ++ "))\n") := by
    apply hasLines_one ("    println(unparseInt(" ++ c.target ++ "))")
    · simp
    · simp [htarget]
  have hlines := hfirst.append hsecond
  simpa only [template, String.append_assoc] using hlines

theorem Made.json_eq (h : c.Made) :
    c.json = "\x7b\"expected\":" ++ decimalWord c.expected ++
      ",\"target\":" ++ ("\"" ++ c.target ++ "\"") ++
      ",\"reference\":" ++ ("\"" ++ c.reference ++ "\"") ++
      ",\"attempts\":" ++ decimal c.attempts ++ "\x7d\n" := by
  unfold json
  rw [h.plain_target.quoted, h.plain_reference.quoted]

theorem Made.hasLines_json (h : c.Made) : HasLines 1 c.json := by
  have hword := (plain_decimalWord c.expected).newline_not_mem
  have hattempts := (plain_decimal c.attempts).newline_not_mem
  have htarget := h.plain_target.newline_not_mem
  have hreference := h.plain_reference.newline_not_mem
  rw [h.json_eq]
  apply hasLines_one ("\x7b\"expected\":" ++ decimalWord c.expected ++
    ",\"target\":" ++ ("\"" ++ c.target ++ "\"") ++
    ",\"reference\":" ++ ("\"" ++ c.reference ++ "\"") ++
    ",\"attempts\":" ++ decimal c.attempts ++ "\x7d")
  · simp
  · simp [hword, hattempts, htarget, hreference]

theorem Made.template_append_inj (hc : c.Made) (hd : d.Made) {r s : List Char}
    (h : c.template.toList ++ r = d.template.toList ++ s) :
    (c.expected, c.target) = (d.expected, d.target) ∧ r = s := by
  simp [template] at h
  obtain ⟨hexpected, h⟩ := decimalWord_append_inj (stopsRun_cons rfl) (stopsRun_cons rfl) h
  simp only [List.cons.injEq, true_and] at h
  -- a parenthesis is plain too, so it is the end of the line that ends the run
  have hclose {c : TestCase} (hc : c.Made) : Plain (c.target ++ "))") :=
    plain_append.mpr ⟨hc.plain_target, rfl⟩
  have hline : (c.target ++ "))").toList ++ '\n' :: r = (d.target ++ "))").toList ++ '\n' :: s := by
    simpa using h
  obtain ⟨htarget, hrest⟩ := (hclose hc).append_inj (hclose hd) (stopsRun_cons rfl)
    (stopsRun_cons rfl) hline
  have htext : c.target = d.target := by simpa [← String.toList_inj] using htarget
  rw [hexpected, htext]
  exact ⟨rfl, (List.cons.inj hrest).2⟩

theorem Made.json_append_inj (hc : c.Made) (hd : d.Made) {r s : List Char}
    (h : c.json.toList ++ r = d.json.toList ++ s) :
    (c.expected, c.target, c.reference, c.attempts) =
      (d.expected, d.target, d.reference, d.attempts) ∧ r = s := by
  rw [hc.json_eq, hd.json_eq] at h
  simp at h
  obtain ⟨hexpected, h⟩ := decimalWord_append_inj (stopsRun_cons rfl) (stopsRun_cons rfl) h
  simp only [List.cons.injEq, true_and] at h
  obtain ⟨htarget, h⟩ := hc.plain_target.append_inj hd.plain_target (stopsRun_cons rfl)
    (stopsRun_cons rfl) h
  simp only [List.cons.injEq, true_and] at h
  obtain ⟨hreference, h⟩ := hc.plain_reference.append_inj hd.plain_reference (stopsRun_cons rfl)
    (stopsRun_cons rfl) h
  simp only [List.cons.injEq, true_and] at h
  obtain ⟨hattempts, h⟩ := decimal_append_inj (stopsRun_cons rfl) (stopsRun_cons rfl) h
  simp only [List.cons.injEq, true_and] at h
  exact ⟨by rw [hexpected, htarget, hreference, hattempts], h⟩

/-! ## One case after another -/

/-- What was emitted for some cases. -/
def emitAll (format : EmitFormat) (cs : List TestCase) : String :=
  String.join (cs.map (·.emit format))

theorem emitAll_cons (format : EmitFormat) (c : TestCase) (cs : List TestCase) :
    emitAll format (c :: cs) = c.emit format ++ emitAll format cs := by
  rw [emitAll, List.map_cons, String.join_cons, emitAll]

theorem emitAll_append (format : EmitFormat) (cs ds : List TestCase) :
    emitAll format (cs ++ ds) = emitAll format cs ++ emitAll format ds := by
  rw [emitAll, List.map_append, String.join_append, emitAll, emitAll]

theorem toList_emitAll (format : EmitFormat) (cs : List TestCase) :
    (emitAll format cs).toList = cs.flatMap fun c => (c.emit format).toList := by
  simp [emitAll, List.flatMap_map]

theorem emit_template (c : TestCase) : c.emit .template = c.template := rfl

theorem emit_json (c : TestCase) : c.emit .json = c.json := rfl

theorem emit_ne_nil (c : TestCase) (format : EmitFormat) : (c.emit format).toList ≠ [] := by
  cases format with
  | template =>
    unfold emit template
    rw [String.toList_append]
    exact List.append_ne_nil_of_right_ne_nil _ (by simp)
  | json =>
    unfold emit json
    rw [String.toList_append]
    exact List.append_ne_nil_of_right_ne_nil _ (by simp)

theorem map_eq_of_emitAll {β : Type} {format : EmitFormat} {content : TestCase → β}
    (hread : ∀ {c d : TestCase} {r s : List Char}, c.Made → d.Made →
      (c.emit format).toList ++ r = (d.emit format).toList ++ s → content c = content d ∧ r = s)
    {cs ds : List TestCase} (hcs : ∀ c ∈ cs, c.Made) (hds : ∀ d ∈ ds, d.Made)
    (h : emitAll format cs = emitAll format ds) : cs.map content = ds.map content := by
  rw [← String.toList_inj, toList_emitAll, toList_emitAll] at h
  induction cs generalizing ds with
  | nil =>
    cases ds with
    | nil => rfl
    | cons d ds => exact absurd (List.append_eq_nil_iff.mp h.symm).1 (d.emit_ne_nil format)
  | cons c cs ih =>
    cases ds with
    | nil => exact absurd (List.append_eq_nil_iff.mp h).1 (c.emit_ne_nil format)
    | cons d ds =>
      rw [List.forall_mem_cons] at hcs hds
      rw [List.flatMap_cons, List.flatMap_cons] at h
      obtain ⟨hcontent, hrest⟩ := hread hcs.1 hds.1 h
      rw [List.map_cons, List.map_cons, hcontent, ih hcs.2 hds.2 hrest]

/-- Texts of emissions can be read back: the template shows the value and the target text of every
case, the other format all but the tree. -/
theorem emitAll_decodes {cs ds : List TestCase} (hcs : ∀ c ∈ cs, c.Made) (hds : ∀ d ∈ ds, d.Made) :
    (emitAll .template cs = emitAll .template ds → cs.length = ds.length ∧
      cs.map (fun c => (c.expected, c.target)) = ds.map (fun d => (d.expected, d.target))) ∧
    (emitAll .json cs = emitAll .json ds → cs.length = ds.length ∧
      cs.map (fun c => (c.expected, c.target, c.reference, c.attempts)) =
        ds.map (fun d => (d.expected, d.target, d.reference, d.attempts))) ∧
    ∀ c ∈ cs, HasLines 2 (c.emit .template) ∧ HasLines 1 (c.emit .json) := by
  refine ⟨?_, ?_, ?_⟩
  · intro h
    have hmap : cs.map (fun c => (c.expected, c.target)) =
        ds.map (fun d => (d.expected, d.target)) := by
      apply map_eq_of_emitAll _ hcs hds h
      · intro c d r s hc hd hread
        rw [emit_template, emit_template] at hread
        exact hc.template_append_inj hd hread
    exact ⟨by simpa using congrArg List.length hmap, hmap⟩
  · intro h
    have hmap : cs.map (fun c => (c.expected, c.target, c.reference, c.attempts)) =
        ds.map (fun d => (d.expected, d.target, d.reference, d.attempts)) := by
      apply map_eq_of_emitAll _ hcs hds h
      · intro c d r s hc hd hread
        rw [emit_json, emit_json] at hread
        exact hc.json_append_inj hd hread
    exact ⟨by simpa using congrArg List.length hmap, hmap⟩
  · intro c hc
    exact ⟨(hcs c hc).hasLines_template, (hcs c hc).hasLines_json⟩

theorem emitAll_negative_literal :
    let c : TestCase := ⟨-3, "-3", "i64(-3)", 1, .literal (-3)⟩
    let d : TestCase := ⟨-3, "-3", "-i64(3)", 1, .negate (.literal 3)⟩
    emitAll .template [c, d] = emitAll .template [d, c] ∧
      [c, d].map (fun c => (c.expected, c.target)) = [d, c].map (fun c => (c.expected, c.target)) ∧
      emitAll .json [c, d] ≠ emitAll .json [d, c] := by
  intro c d
  have hc : c.Made := .ofTree (show TestCase.ofTree (.literal (-3)) = .ok c by cbv)
  have hd : d.Made := .ofTree (show TestCase.ofTree (.negate (.literal 3)) = .ok d by cbv)
  have hcs : ∀ a ∈ [c, d], a.Made := by simp [hc, hd]
  have hds : ∀ a ∈ [d, c], a.Made := by simp [hc, hd]
  obtain ⟨htemplate, hjson, -⟩ := emitAll_decodes hcs hds
  have hsame : emitAll .template [c, d] = emitAll .template [d, c] := rfl
  exact ⟨hsame, (htemplate hsame).2, fun h => absurd (hjson h).2 (by decide)⟩

end TestCase

end Arith64

import Arith64.Proofs.Machine

/-!
# Which programs have a value

Any list of instructions is a program, with any table. A run that gives a value
has made an expression on the way: each value on the stack is the value of an
expression, and the operations so far are those of the expressions on the pile.
-/

namespace Arith64

/-- The operations of a program, unless an index is out of range. -/
def Program.operations? (p : Program) : Option (List Operation) :=
  p.code.mapM (Instr.operation? p.constants)

theorem Program.operations?_eq_some_iff {p : Program} {operations : List Operation} :
    p.operations? = some operations ↔ Does p.constants p.code operations := by
  unfold operations? Does
  generalize p.code = code
  induction code generalizing operations with
  | nil => cases operations <;> simp
  | cons instr code ih =>
    cases operations with
    | nil => simp [Option.bind_eq_some_iff]
    | cons o operations => simp [Option.bind_eq_some_iff, ih]

/-! ## One step -/

/-- The values on the stack are those of the expressions on the pile. -/
def ValuesOf (pile : List Expr) (stack : Stack) : Prop :=
  pile.map Expr.value = stack.map .ok

theorem valuesOf_cons {e : Expr} {pile : List Expr} {v : Int64} {stack : Stack} :
    ValuesOf (e :: pile) (v :: stack) ↔ e.value = .ok v ∧ ValuesOf pile stack := by
  simp [ValuesOf]

theorem valuesOf_of_cons {pile : List Expr} {v : Int64} {stack : Stack}
    (h : ValuesOf pile (v :: stack)) :
    ∃ e rest, pile = e :: rest ∧ e.value = .ok v ∧ ValuesOf rest stack :=
  List.map_eq_cons_iff.mp h

theorem step_closes {constants : Array Int64} {instr : Instr} {stack next : Stack}
    {pile : List Expr} (hvalues : ValuesOf pile stack)
    (hstep : instr.step constants stack = .ok next) :
    ∃ o pile', instr.operation? constants = some o ∧ o.close pile = some pile' ∧
      ValuesOf pile' next := by
  -- Only three steps go on: a constant in range, a negation, an operator without a fault.
  unfold Instr.step at hstep
  split at hstep
  · split at hstep
    · rename_i index v hv
      cases hstep
      refine ⟨.constant v, .literal v :: pile, ?_, rfl, valuesOf_cons.mpr ⟨rfl, hvalues⟩⟩
      simp [Instr.operation?, hv]
    · cases hstep
  · cases hstep
    obtain ⟨e, pile, rfl, he, hrest⟩ := valuesOf_of_cons hvalues
    refine ⟨.negate, .negate e :: pile, rfl, rfl, valuesOf_cons.mpr ⟨?_, hrest⟩⟩
    rw [Expr.value, he]
  · cases hstep
  · rename_i op b a stack
    split at hstep
    · rename_i v hv
      cases hstep
      obtain ⟨r, pile, rfl, hr, hrest⟩ := valuesOf_of_cons hvalues
      obtain ⟨l, pile, rfl, hl, hrest⟩ := valuesOf_of_cons hrest
      refine ⟨.operate op, .binary op l r :: pile, rfl, rfl, valuesOf_cons.mpr ⟨?_, hrest⟩⟩
      rw [Expr.value, hl, hr]
      exact hv
    · cases hstep
  · cases hstep

/-! ## A whole run -/

theorem exec_closes {constants : Array Int64} {code : List Instr} {stack final : Stack}
    {pile : List Expr} (hvalues : ValuesOf pile stack)
    (hexec : exec constants code stack = .ok final) :
    ∃ operations pile', Does constants code operations ∧
      closeAll operations pile = some pile' ∧ ValuesOf pile' final := by
  induction code generalizing stack pile with
  | nil =>
    cases hexec
    exact ⟨[], pile, rfl, rfl, hvalues⟩
  | cons instr code ih =>
    rw [exec] at hexec
    split at hexec
    · rename_i next hstep
      obtain ⟨o, pile, ho, hclose, hnext⟩ := step_closes hvalues hstep
      obtain ⟨operations, pile', hdoes, hall, hfinal⟩ := ih hnext hexec
      have hinstr : Does constants [instr] [o] := by simp [Does, ho]
      exact ⟨o :: operations, pile', hinstr.append hdoes, by simp [closeAll, hclose, hall], hfinal⟩
    · cases hexec

namespace Program

variable {p : Program} {e : Expr}

theorem exec_of_run_eq_ok {stack : Stack} {v : Int64} (h : (p.run stack).1 = .ok v) :
    exec p.constants p.code [] = .ok [v] := by
  unfold run at h
  rw [Stack.cleared_eq_nil] at h
  split at h
  · cases h
  · rename_i value hexec
    cases h
    exact hexec
  · cases h

theorem operations?_of_run_eq_ok {stack : Stack} {v : Int64} (h : (p.run stack).1 = .ok v) :
    ∃ e : Expr, e.GroupFree ∧ p.operations? = some e.postorder := by
  have hnil : ValuesOf [] [] := rfl
  obtain ⟨operations, pile, hdoes, hall, hfinal⟩ := exec_closes hnil (exec_of_run_eq_ok h)
  obtain ⟨e, rest, rfl, -, hrest⟩ := valuesOf_of_cons hfinal
  obtain rfl := List.map_eq_nil_iff.mp hrest
  obtain ⟨hfree, rfl⟩ := closeAll_eq_singleton_iff.mp hall
  exact ⟨e, hfree, operations?_eq_some_iff.mpr hdoes⟩

theorem run_of_operations? (h : p.operations? = some e.postorder) (stack : Stack) :
    (p.run stack).1 = e.value.mapError .fault := by
  have hexec := exec_postorder (operations?_eq_some_iff.mp h) [] []
  rw [List.append_nil] at hexec
  rw [run, Stack.cleared_eq_nil, hexec]
  cases e.value with
  | error fault => rfl
  | ok v => rfl

theorem eq_of_operations? {f : Expr} (he : e.GroupFree) (hf : f.GroupFree)
    (hpe : p.operations? = some e.postorder) (hpf : p.operations? = some f.postorder) :
    f = e := by
  rw [hpe, Option.some.injEq] at hpf
  rw [← Expr.ungroup_of_groupFree hf, ← Expr.ungroup_eq_of_postorder hpf,
    Expr.ungroup_of_groupFree he]

/-- A program with the operations of an expression gives the value or the first fault of it, and
no other program gives a value. What was on the stack before makes no difference. -/
theorem run_settled (p : Program) (stack : Stack) :
    (∀ e : Expr, e.GroupFree → p.operations? = some e.postorder →
      (∀ f : Expr, f.GroupFree → p.operations? = some f.postorder → f = e) ∧
        (p.run stack).1 = e.value.mapError .fault ∧
        ∀ defect, (p.run stack).1 ≠ .error (.malformed defect)) ∧
      ((¬ ∃ e : Expr, e.GroupFree ∧ p.operations? = some e.postorder) →
        ∀ v, (p.run stack).1 ≠ .ok v) := by
  constructor
  · intro e he hp
    have hrun := run_of_operations? hp stack
    refine ⟨fun f hf hpf => eq_of_operations? he hf hp hpf, hrun, ?_⟩
    intro defect
    rw [hrun]
    cases e.value with
    | error fault => simp [Except.mapError]
    | ok v => simp [Except.mapError]
  · intro hnone v hv
    exact hnone (operations?_of_run_eq_ok hv)

theorem run_shared_constant_missing_operand :
    ((⟨[.push 1, .push 1, .operate .div], #[0, 5]⟩ : Program).run [9, 9]).1 = .ok 1 ∧
      ∀ v, ((⟨[.push 1, .operate .div], #[0, 5]⟩ : Program).run [9, 9]).1 ≠ .ok v := by
  constructor
  · exact ((run_settled _ _).1 (.binary .div (.literal 5) (.literal 5)) ⟨trivial, trivial⟩ rfl).2.1
  · apply (run_settled _ _).2
    rintro ⟨e, hfree, hp⟩
    have hpost : [.constant 5, .operate .div] = e.postorder := Option.some.inj hp
    have hall := closeAll_eq_singleton_iff.mpr ⟨hfree, hpost⟩
    cases hall

end Program

end Arith64

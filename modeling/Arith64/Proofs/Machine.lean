import Mathlib
import Arith64.Expr.Value
import Arith64.Machine.Run
import Arith64.Proofs.Postorder

/-!
# The machine computes the value

Instructions that do the operations of an expression put its value on the stack
and go on, or stop at the first fault. The code of the expression is one way to
do them, on any stack, in front of any other code, and with a table that has
more constants on both sides.
-/

namespace Arith64

/-! ## How many constants -/

theorem Expr.literalCount_le_two_pow_depth (e : Expr) : e.literalCount ≤ 2 ^ e.depth := by
  induction e with
  | literal v => exact Nat.le_refl 1
  | negate e ih =>
    simp only [literalCount, depth, Nat.pow_succ]
    omega
  | binary op l r ihl ihr =>
    simp only [literalCount, depth, Nat.pow_succ]
    have hl := Nat.pow_le_pow_right (by omega : 0 < 2) (Nat.le_max_left l.depth r.depth)
    have hr := Nat.pow_le_pow_right (by omega : 0 < 2) (Nat.le_max_right l.depth r.depth)
    omega
  | group e ih =>
    simp only [literalCount, depth, Nat.pow_succ]
    omega

/-- From place `next` on, the table has these values. -/
def Holds (constants : Array Int64) (next : Nat) (values : List Int64) : Prop :=
  values <+: constants.toList.drop next

theorem holds_all (values : List Int64) : Holds values.toArray 0 values := by
  simp [Holds]

theorem Holds.get {constants : Array Int64} {next : Nat} {v : Int64}
    (h : Holds constants next [v]) : constants[next]? = some v := by
  obtain ⟨more, hmore⟩ := h
  rw [← Array.getElem?_toList, ← List.head?_drop, ← hmore]
  rfl

theorem Holds.left {constants : Array Int64} {next : Nat} {xs ys : List Int64}
    (h : Holds constants next (xs ++ ys)) : Holds constants next xs :=
  (List.prefix_append xs ys).trans h

theorem Holds.right {constants : Array Int64} {next : Nat} {xs ys : List Int64}
    (h : Holds constants next (xs ++ ys)) : Holds constants (next + xs.length) ys := by
  obtain ⟨more, hmore⟩ := h
  refine ⟨more, ?_⟩
  rw [← List.drop_drop, ← hmore, List.append_assoc, List.drop_left]

/-! ## What instructions do -/

/-- The operation of an instruction, with the constant that it names. -/
def Instr.operation? (constants : Array Int64) : Instr → Option Operation
  | .push index => constants[index.toNat]?.map .constant
  | .negate => some .negate
  | .operate op => some (.operate op)

/-- These are the operations of the instructions. No index is out of range. -/
def Does (constants : Array Int64) (code : List Instr) (operations : List Operation) : Prop :=
  code.map (Instr.operation? constants) = operations.map some

theorem Does.of_append {constants : Array Int64} {code : List Instr} {xs ys : List Operation}
    (h : Does constants code (xs ++ ys)) :
    ∃ front back, code = front ++ back ∧ Does constants front xs ∧ Does constants back ys := by
  unfold Does at h
  rw [List.map_append] at h
  exact List.map_eq_append_iff.mp h

theorem Does.of_singleton {constants : Array Int64} {code : List Instr} {o : Operation}
    (h : Does constants code [o]) :
    ∃ instr, code = [instr] ∧ instr.operation? constants = some o :=
  List.map_eq_singleton_iff.mp h

theorem Does.append {constants : Array Int64} {front back : List Instr} {xs ys : List Operation}
    (hfront : Does constants front xs) (hback : Does constants back ys) :
    Does constants (front ++ back) (xs ++ ys) := by
  unfold Does at *
  rw [List.map_append, List.map_append, hfront, hback]

theorem Instr.step_constant {constants : Array Int64} {instr : Instr} {v : Int64}
    (h : instr.operation? constants = some (.constant v)) (stack : Stack) :
    instr.step constants stack = .ok (v :: stack) := by
  cases instr with
  | push index =>
    obtain ⟨value, hvalue, hv⟩ := Option.map_eq_some_iff.mp h
    cases hv
    simp only [Instr.step, hvalue]
  | negate => cases h
  | operate op => cases h

theorem Instr.operation?_eq_negate_iff {constants : Array Int64} {instr : Instr} :
    instr.operation? constants = some .negate ↔ instr = .negate := by
  cases instr <;> simp [Instr.operation?]

theorem Instr.operation?_eq_operate_iff {constants : Array Int64} {instr : Instr} {op : BinOp} :
    instr.operation? constants = some (.operate op) ↔ instr = .operate op := by
  cases instr <;> simp [Instr.operation?]

/-! ## Running the operations of an expression -/

def Expr.residue : Expr → Stack → Stack
  | .literal _, stack => stack
  | .negate e, stack => e.residue stack
  | .binary _ l r, stack =>
    match l.value with
    | .error _ => l.residue stack
    | .ok a =>
      match r.value with
      | .error _ => r.residue (a :: stack)
      | .ok _ => stack
  | .group e, stack => e.residue stack

theorem exec_postorder {constants : Array Int64} {e : Expr} {code : List Instr}
    (h : Does constants code e.postorder) (behind : List Instr) (stack : Stack) :
    exec constants (code ++ behind) stack =
      match e.value with
      | .ok v => exec constants behind (v :: stack)
      | .error fault => .error ⟨.fault fault, e.residue stack⟩ := by
  induction e generalizing code behind stack with
  | literal v =>
    obtain ⟨instr, rfl, hinstr⟩ := h.of_singleton
    simp only [List.singleton_append, exec, Instr.step_constant hinstr, Expr.value]
  | negate e ih =>
    obtain ⟨front, back, rfl, hfront, hback⟩ := h.of_append
    obtain ⟨instr, rfl, hinstr⟩ := hback.of_singleton
    obtain rfl := Instr.operation?_eq_negate_iff.mp hinstr
    rw [List.append_assoc, ih hfront, Expr.value]
    cases e.value with
    | error fault => rfl
    | ok v => rfl
  | binary op l r ihl ihr =>
    obtain ⟨left, back, rfl, hleft, hback⟩ := h.of_append
    obtain ⟨right, back, rfl, hright, hback⟩ := hback.of_append
    obtain ⟨instr, rfl, hinstr⟩ := hback.of_singleton
    obtain rfl := Instr.operation?_eq_operate_iff.mp hinstr
    rw [List.append_assoc, List.append_assoc, ihl hleft, Expr.value, Expr.residue]
    cases l.value with
    | error fault => rfl
    | ok a =>
      simp only [ihr hright _ (a :: stack)]
      cases r.value with
      | error fault => rfl
      | ok b =>
        simp only [List.singleton_append, exec, Instr.step]
        cases op.apply a b with
        | error fault => rfl
        | ok v => rfl
  | group e ih => exact ih h behind stack

/-! ## The code of an expression -/

theorem toNat_index {next : Nat} (h : next + 1 ≤ 2 ^ 32) : (UInt32.ofNat next).toNat = next := by
  apply UInt32.toNat_ofNat_of_lt'
  simp only [UInt32.size]
  omega

theorem does_codeOnto {constants : Array Int64} {e : Expr} {next : Nat}
    {behind : List Instr} {operations : List Operation} (hfit : next + e.literalCount ≤ 2 ^ 32)
    (hholds : Holds constants next e.literals) (hbehind : Does constants behind operations) :
    Does constants (e.codeOnto next behind) (e.postorder ++ operations) := by
  induction e generalizing next behind operations with
  | literal v =>
    have hpush : Does constants [.push (UInt32.ofNat next)] [.constant v] := by
      simp [Does, Instr.operation?, toNat_index hfit, hholds.get]
    exact hpush.append hbehind
  | negate e ih =>
    have hnegate : Does constants [.negate] [.negate] := rfl
    rw [Expr.postorder, List.append_assoc]
    exact ih hfit hholds (hnegate.append hbehind)
  | binary op l r ihl ihr =>
    simp only [Expr.literalCount] at hfit
    have hright : Holds constants (next + l.literalCount) r.literals := by
      rw [← Expr.length_literals]
      exact hholds.right
    have hoperate : Does constants [.operate op] [.operate op] := rfl
    rw [Expr.postorder, List.append_assoc, List.append_assoc]
    exact ihl (by omega) hholds.left (ihr (by omega) hright (hoperate.append hbehind))
  | group e ih => exact ih hfit hholds hbehind

theorem does_program {e : Expr} (hfit : e.literalCount ≤ 2 ^ 32) :
    Does e.program.constants e.program.code e.postorder := by
  have hnil : Does e.program.constants [] [] := rfl
  have hfit' : 0 + e.literalCount ≤ 2 ^ 32 := by omega
  have hdoes := does_codeOnto hfit' (holds_all e.literals) hnil
  rwa [List.append_nil] at hdoes

theorem run_program {e : Expr} (hfit : e.literalCount ≤ 2 ^ 32) (stack : Stack) :
    e.program.run stack =
      match e.value with
      | .ok v => (.ok v, [])
      | .error fault => (.error (.fault fault), e.residue []) := by
  have hexec := exec_postorder (does_program hfit) [] []
  rw [List.append_nil] at hexec
  rw [Program.run, Stack.cleared_eq_nil, hexec]
  cases e.value with
  | error fault => rfl
  | ok v => rfl

theorem evaluate_eq_value {e : Expr} (hfit : e.literalCount ≤ 2 ^ 32) :
    e.evaluate = e.value.mapError .fault := by
  rw [Expr.evaluate, run_program hfit]
  cases e.value with
  | error fault => rfl
  | ok v => rfl

end Arith64

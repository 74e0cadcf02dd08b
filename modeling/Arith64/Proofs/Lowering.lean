import Mathlib
import Arith64.Expr.Walk
import Arith64.Proofs.Machine

/-!
# What a program keeps of its expression

Everything but the groups. The table holds the literals from left to right, and
the code asks for each of them once, in this order. There is an instruction for
every node that is no group, and the whole program tells its expression apart
from all that differ from it in more than groups.
-/

namespace Arith64

/-! ## Programs that grow -/

namespace Program

/-- Puts an instruction behind the others. -/
def emit (p : Program) (instr : Instr) : Program := { p with code := p.code ++ [instr] }

/-- Puts a value at the end of the table, and behind the code the instruction that pushes it. -/
def emitConstant (p : Program) (v : Int64) : Program :=
  ⟨p.code ++ [.push (UInt32.ofNat p.constants.size)], p.constants.push v⟩

end Program

/-- Lets a program grow by an expression, one node after another. -/
def Expr.lowerOnto : Expr → Program → Program
  | .literal v, p => p.emitConstant v
  | .negate e, p => (e.lowerOnto p).emit .negate
  | .binary op l r, p => (r.lowerOnto (l.lowerOnto p)).emit (.operate op)
  | .group e, p => e.lowerOnto p

/-- The place in the table that an instruction asks for. -/
def Instr.index? : Instr → Option Nat
  | .push index => some index.toNat
  | .negate | .operate _ => none

namespace Expr

theorem lowerOnto_eq (e : Expr) (p : Program) :
    e.lowerOnto p =
      ⟨p.code ++ e.codeOnto p.constants.size [], p.constants ++ e.literals.toArray⟩ := by
  induction e generalizing p with
  | literal v => simp [lowerOnto, Program.emitConstant, codeOnto, literals]
  | negate e ih =>
    rw [lowerOnto, ih, Program.emit, List.append_assoc, codeOnto_append]
    rfl
  | binary op l r ihl ihr =>
    rw [lowerOnto, ihl, ihr, Program.emit]
    simp only [codeOnto, literals, List.append_assoc, codeOnto_append, List.nil_append,
      Array.size_append, List.size_toArray, length_literals, Array.append_assoc,
      List.append_toArray]
  | group e ih => exact ih p

theorem program_eq_lowerOnto (e : Expr) : e.program = e.lowerOnto ⟨[], #[]⟩ := by
  simp [lowerOnto_eq, program, code]

/-! ## Indices and lengths -/

theorem indices_codeOnto {e : Expr} {next : Nat} (behind : List Instr)
    (hfit : next + e.literalCount ≤ 2 ^ 32) :
    (e.codeOnto next behind).filterMap Instr.index? =
      List.range' next e.literalCount ++ behind.filterMap Instr.index? := by
  induction e generalizing next behind with
  | literal v =>
    simp [codeOnto, literalCount, Instr.index?, toNat_index hfit]
  | negate e ih => exact ih (.negate :: behind) hfit
  | binary op l r ihl ihr =>
    simp only [literalCount] at hfit
    rw [codeOnto, ihl _ (by omega), ihr _ (by omega), literalCount, ← List.range'_append,
      List.append_assoc, Nat.one_mul]
    rfl
  | group e ih => exact ih behind hfit

theorem length_codeOnto (e : Expr) (next : Nat) (behind : List Instr) :
    (e.codeOnto next behind).length + e.walk.count .group = e.nodeCount + behind.length := by
  induction e generalizing next behind with
  | literal v => simp [codeOnto, walk, nodeCount, Nat.add_comm]
  | negate e ih =>
    have h := ih next (.negate :: behind)
    simp only [codeOnto, walk, nodeCount, List.length_cons, ne_eq, reduceCtorEq, not_false_eq_true,
      List.count_cons_of_ne] at h ⊢
    omega
  | binary op l r ihl ihr =>
    have hl := ihl next (r.codeOnto (next + l.literalCount) (.operate op :: behind))
    have hr := ihr (next + l.literalCount) (.operate op :: behind)
    simp only [codeOnto, walk, nodeCount, List.length_cons, List.count_append, ne_eq, reduceCtorEq,
      not_false_eq_true, List.count_cons_of_ne] at hl hr ⊢
    omega
  | group e ih =>
    have h := ih next behind
    simp only [codeOnto, walk, nodeCount, List.count_cons_self] at h ⊢
    omega

/-! ## Groups -/

theorem literals_ungroup (e : Expr) : e.ungroup.literals = e.literals := by
  induction e with
  | literal v => rfl
  | negate e ih => exact ih
  | binary op l r ihl ihr => rw [ungroup, literals, ihl, ihr, literals]
  | group e ih => exact ih

theorem codeOnto_ungroup (e : Expr) (next : Nat) (behind : List Instr) :
    e.ungroup.codeOnto next behind = e.codeOnto next behind := by
  induction e generalizing next behind with
  | literal v => rfl
  | negate e ih => exact ih next (.negate :: behind)
  | binary op l r ihl ihr =>
    rw [ungroup, codeOnto, ihl, ihr, ← length_literals l.ungroup, literals_ungroup,
      length_literals, codeOnto]
  | group e ih => exact ih next behind

theorem program_ungroup (e : Expr) : e.ungroup.program = e.program := by
  rw [program, code, codeOnto_ungroup, literals_ungroup, program, code]

theorem program_eq_iff {a b : Expr} (ha : a.literalCount ≤ 2 ^ 32) (hb : b.literalCount ≤ 2 ^ 32) :
    a.program = b.program ↔ a.ungroup = b.ungroup := by
  constructor
  · intro h
    have hdoes := does_program ha
    rw [h, Does, does_program hb] at hdoes
    exact ungroup_eq_of_postorder (List.map_injective_iff.mpr (Option.some_injective _) hdoes).symm
  · intro h
    rw [← program_ungroup a, h, program_ungroup]

/-- A program is grown node by node. It keeps the literals in order, asks for each of them once and
in this order, leaves out no node but the groups, and loses nothing else. -/
theorem program_loses_groups (e : Expr) (hfit : e.literalCount ≤ 2 ^ 32) :
    e.program = e.lowerOnto ⟨[], #[]⟩ ∧
      e.program.constants.toList = e.literals ∧
      e.program.code.filterMap Instr.index? = List.range e.literals.length ∧
      e.program.code.length + e.walk.count .group = e.nodeCount ∧
      ∀ e' : Expr, e'.literalCount ≤ 2 ^ 32 →
        (e.program = e'.program ↔ e.ungroup = e'.ungroup) := by
  refine ⟨program_eq_lowerOnto e, rfl, ?_, length_codeOnto e 0 [], ?_⟩
  · have hfit' : 0 + e.literalCount ≤ 2 ^ 32 := by omega
    have hindices := indices_codeOnto [] hfit'
    rw [List.filterMap_nil, List.append_nil] at hindices
    rw [length_literals, List.range_eq_range']
    exact hindices
  · intro e' hfit'
    exact program_eq_iff hfit hfit'

theorem program_grouped_product :
    let a := binary .mul (negate (literal 4)) (literal 9)
    let b := group (binary .mul (negate (group (literal 4))) (literal 9))
    let c := negate (binary .mul (literal 4) (literal 9))
    a.program = b.program ∧ b.program.code.length + 2 = b.nodeCount ∧ b.program ≠ c.program := by
  intro a b c
  obtain ⟨-, -, -, hlength, hsame⟩ := program_loses_groups b (by decide)
  refine ⟨((hsame a (by decide)).mpr rfl).symm, hlength, ?_⟩
  intro h
  exact absurd ((hsame c (by decide)).mp h) (by decide)

end Expr

end Arith64

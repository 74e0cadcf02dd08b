import Arith64.Expr.Basic

/-!
# Operations behind their operands

What an expression asks for, in the order in which it is done: the operands
from left to right, then the operation. The operations tell an expression up to
its groups, since a pile that takes its operands off the top makes it again.
-/

namespace Arith64

/-! ## Expressions without groups -/

namespace Expr

def GroupFree : Expr → Prop
  | literal _ => True
  | negate e => e.GroupFree
  | binary _ l r => l.GroupFree ∧ r.GroupFree
  | group _ => False

/-- The expression without its groups. What stood in them stays. -/
def ungroup : Expr → Expr
  | literal v => literal v
  | negate e => negate e.ungroup
  | binary op l r => binary op l.ungroup r.ungroup
  | group e => e.ungroup

theorem groupFree_ungroup (e : Expr) : e.ungroup.GroupFree := by
  induction e with
  | literal v => trivial
  | negate e ih => exact ih
  | binary op l r ihl ihr => exact ⟨ihl, ihr⟩
  | group e ih => exact ih

theorem ungroup_of_groupFree {e : Expr} (h : e.GroupFree) : e.ungroup = e := by
  induction e with
  | literal v => rfl
  | negate e ih => rw [ungroup, ih h]
  | binary op l r ihl ihr => rw [ungroup, ihl h.1, ihr h.2]
  | group e ih => exact h.elim

end Expr

/-! ## Operations -/

/-- One thing that is done: a constant is put down, or one or two operands are replaced. -/
inductive Operation where
  | constant (value : Int64)
  | negate
  | operate (op : BinOp)
  deriving DecidableEq

/-- The operations of an expression, each behind its operands. A group asks for nothing. -/
def Expr.postorder : Expr → List Operation
  | .literal v => [.constant v]
  | .negate e => e.postorder ++ [.negate]
  | .binary op l r => l.postorder ++ (r.postorder ++ [.operate op])
  | .group e => e.postorder

/-! ## A pile of expressions -/

/-- Puts a node in the place of its operands on a pile, the last operand on top. -/
def Operation.close : Operation → List Expr → Option (List Expr)
  | constant v, pile => some (.literal v :: pile)
  | negate, e :: pile => some (.negate e :: pile)
  | operate op, r :: l :: pile => some (.binary op l r :: pile)
  | _, _ => none

/-- What some operations one after another make of a pile. -/
def closeAll : List Operation → List Expr → Option (List Expr)
  | [], pile => some pile
  | o :: operations, pile => (o.close pile).bind (closeAll operations)

/-- The operations that made a pile. -/
def pilePostorder : List Expr → List Operation
  | [] => []
  | e :: pile => pilePostorder pile ++ e.postorder

theorem closeAll_postorder (e : Expr) (behind : List Operation) (pile : List Expr) :
    closeAll (e.postorder ++ behind) pile = closeAll behind (e.ungroup :: pile) := by
  induction e generalizing behind pile with
  | literal v => rfl
  | negate e ih =>
    rw [Expr.postorder, List.append_assoc, ih]
    rfl
  | binary op l r ihl ihr =>
    rw [Expr.postorder, List.append_assoc, List.append_assoc, ihl, ihr]
    rfl
  | group e ih => exact ih behind pile

theorem pilePostorder_close {o : Operation} {pile pile' : List Expr}
    (h : o.close pile = some pile') : pilePostorder pile' = pilePostorder pile ++ [o] := by
  cases o with
  | constant v =>
    cases h
    rfl
  | negate =>
    rcases pile with _ | ⟨e, pile⟩
    · cases h
    · cases h
      simp only [pilePostorder, Expr.postorder, List.append_assoc]
  | operate op =>
    rcases pile with _ | ⟨r, _ | ⟨l, pile⟩⟩
    · cases h
    · cases h
    · cases h
      simp only [pilePostorder, Expr.postorder, List.append_assoc]

theorem pilePostorder_closeAll {operations : List Operation} {pile pile' : List Expr}
    (h : closeAll operations pile = some pile') :
    pilePostorder pile' = pilePostorder pile ++ operations := by
  induction operations generalizing pile with
  | nil =>
    cases h
    simp
  | cons o operations ih =>
    obtain ⟨next, hclose, hrest⟩ := Option.bind_eq_some_iff.mp h
    rw [ih hrest, pilePostorder_close hclose, List.append_assoc]
    rfl

/-! ## Reading the operations back -/

theorem Expr.ungroup_eq_of_postorder {a b : Expr} (h : a.postorder = b.postorder) :
    a.ungroup = b.ungroup := by
  have ha := closeAll_postorder a [] []
  have hb := closeAll_postorder b [] []
  rw [h, hb] at ha
  simpa [closeAll] using ha.symm

/-- Operations leave a single expression on the pile if they are the operations of an expression
without groups, and only then. -/
theorem closeAll_eq_singleton_iff {operations : List Operation} {e : Expr} :
    closeAll operations [] = some [e] ↔ e.GroupFree ∧ operations = e.postorder := by
  constructor
  · intro h
    -- What made the pile is known from the pile, and it makes an expression without groups.
    have hpost : e.postorder = operations := by
      simpa [pilePostorder] using pilePostorder_closeAll h
    have hpile := closeAll_postorder e [] []
    rw [List.append_nil, hpost, h] at hpile
    have hself : e = e.ungroup := by simpa [closeAll] using hpile
    refine ⟨?_, hpost.symm⟩
    rw [hself]
    exact e.groupFree_ungroup
  · rintro ⟨hfree, rfl⟩
    have hpile := closeAll_postorder e [] []
    rw [List.append_nil, Expr.ungroup_of_groupFree hfree] at hpile
    exact hpile

end Arith64

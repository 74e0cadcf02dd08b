import Arith64.Expr.Basic

/-!
# The walk of an expression

One label per node, a node before its children and left before right. A walk
reads back from its right end: each label takes its operands off a pile and
puts the node it makes in their place. `ofWalk?_walk` says nothing is lost.
-/

namespace Arith64

/-- What one node shows of itself, without its children. -/
inductive Label where
  | literal (value : Int64)
  | negate
  | operator (op : BinOp)
  | group
  deriving DecidableEq

/-- The labels of an expression, root first. -/
def Expr.walk : Expr → List Label
  | .literal v => [.literal v]
  | .negate e => .negate :: e.walk
  | .binary op l r => .operator op :: (l.walk ++ r.walk)
  | .group e => .group :: e.walk

/-- Takes the operands of a label off a pile, first operand on top, and puts the node on it. -/
def Label.build : Label → List Expr → Option (List Expr)
  | .literal v, pile => some (.literal v :: pile)
  | .negate, e :: pile => some (.negate e :: pile)
  | .operator op, l :: r :: pile => some (.binary op l r :: pile)
  | .group, e :: pile => some (.group e :: pile)
  | _, _ => none

/-- The expressions that a list of labels walks through one after another. -/
def Expr.pileOfWalk (labels : List Label) : Option (List Expr) :=
  labels.foldr (fun label pile => pile.bind label.build) (some [])

/-- The expression with this walk. -/
def Expr.ofWalk? (labels : List Label) : Option Expr :=
  match pileOfWalk labels with
  | some [e] => some e
  | _ => none

namespace Expr

theorem pileOfWalk_cons (label : Label) (labels : List Label) :
    pileOfWalk (label :: labels) = (pileOfWalk labels).bind label.build := rfl

theorem pileOfWalk_walk_append (e : Expr) (rest : List Label) :
    pileOfWalk (e.walk ++ rest) = (pileOfWalk rest).map (e :: ·) := by
  induction e generalizing rest with
  | literal v =>
    rw [walk, List.cons_append, List.nil_append, pileOfWalk_cons]
    cases pileOfWalk rest <;> rfl
  | negate e ih =>
    rw [walk, List.cons_append, pileOfWalk_cons, ih]
    cases pileOfWalk rest <;> rfl
  | binary op l r ihl ihr =>
    rw [walk, List.cons_append, List.append_assoc, pileOfWalk_cons, ihl, ihr]
    cases pileOfWalk rest <;> rfl
  | group e ih =>
    rw [walk, List.cons_append, pileOfWalk_cons, ih]
    cases pileOfWalk rest <;> rfl

theorem ofWalk?_walk (e : Expr) : ofWalk? e.walk = some e := by
  have h := pileOfWalk_walk_append e []
  rw [List.append_nil, show pileOfWalk [] = some [] from rfl] at h
  simp [ofWalk?, h]

theorem length_walk (e : Expr) : e.walk.length = e.nodeCount := by
  induction e with
  | literal v => rfl
  | negate e ih => simp [walk, nodeCount, ih]
  | binary op l r ihl ihr => simp [walk, nodeCount, ihl, ihr]
  | group e ih => simp [walk, nodeCount, ih]

end Expr

end Arith64

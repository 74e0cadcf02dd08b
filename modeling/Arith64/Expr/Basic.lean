/-!
# Expressions over 64-bit words

The tree every other module works on: what it is made of, how it is measured,
and the operators and literals it holds from left to right.
-/

namespace Arith64

/-! ## Operators -/

/-- The operators between two words. `highMul` keeps the upper half of a product. -/
inductive BinOp where
  | add
  | sub
  | mul
  | div
  | rem
  | highMul
  deriving DecidableEq

namespace BinOp

def all : List BinOp := [.add, .sub, .mul, .div, .rem, .highMul]

/-- How an operator is written between its operands. -/
def symbol : BinOp → String
  | .add => "+"
  | .sub => "-"
  | .mul => "*"
  | .div => "/"
  | .rem => "%"
  | .highMul => "*>>"

def ofSymbol? (text : String) : Option BinOp := all.find? fun op => op.symbol == text

theorem symbol_injective {a b : BinOp} (h : a.symbol = b.symbol) : a = b := by
  revert h
  cases a <;> cases b <;> decide

theorem ofSymbol?_eq_some_iff {text : String} {op : BinOp} :
    ofSymbol? text = some op ↔ op.symbol = text := by
  constructor
  · intro h
    unfold ofSymbol? at h
    simpa using List.find?_some h
  · rintro rfl
    cases op <;> simp [ofSymbol?, all, symbol, List.find?]

end BinOp

/-! ## Trees -/

/-- An arithmetic expression. A group is a pair of parentheses that changes nothing. -/
inductive Expr where
  | literal (value : Int64)
  | negate (operand : Expr)
  | binary (op : BinOp) (left right : Expr)
  | group (inner : Expr)
  deriving DecidableEq

namespace Expr

/-- The number of edges on the longest path from the root down. -/
def depth : Expr → Nat
  | literal _ => 0
  | negate e => e.depth + 1
  | binary _ l r => max l.depth r.depth + 1
  | group e => e.depth + 1

def nodeCount : Expr → Nat
  | literal _ => 1
  | negate e => e.nodeCount + 1
  | binary _ l r => l.nodeCount + r.nodeCount + 1
  | group e => e.nodeCount + 1

/-- The binary operators, a node before its children and left before right. -/
def operators : Expr → List BinOp
  | literal _ => []
  | negate e => e.operators
  | binary op l r => op :: (l.operators ++ r.operators)
  | group e => e.operators

def literals : Expr → List Int64
  | literal v => [v]
  | negate e => e.literals
  | binary _ l r => l.literals ++ r.literals
  | group e => e.literals

def literalCount : Expr → Nat
  | literal _ => 1
  | negate e => e.literalCount
  | binary _ l r => l.literalCount + r.literalCount
  | group e => e.literalCount

def binaryCount (e : Expr) : Nat := e.operators.length

@[simp] theorem length_literals (e : Expr) : e.literals.length = e.literalCount := by
  induction e with
  | literal v => rfl
  | negate e ih => exact ih
  | binary op l r ihl ihr => simp [literals, literalCount, ihl, ihr]
  | group e ih => exact ih

end Expr

end Arith64

import Arith64.Case.Options
import Arith64.Target

/-!
# Test cases

An expression in both dialects and the value that a program under test has to
arrive at. The value is computed from the reference text and not from the tree,
so an expression that does not read back is no case.
-/

namespace Arith64

/-- An expected value and the two texts of one expression. -/
structure TestCase where
  expected : Int64
  target : String
  reference : String
  /-- How many expressions were drawn to find this one, itself included. -/
  attempts : Nat
  tree : Expr
  deriving DecidableEq

/-- The case of an expression that was the first one drawn. -/
def TestCase.ofTree (tree : Expr) : Except Failure TestCase := do
  let reference := tree.reference
  let expected ← computeText reference
  return { expected, target := tree.target, reference, attempts := 1, tree }

end Arith64

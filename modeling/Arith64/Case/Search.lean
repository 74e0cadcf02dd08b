import Arith64.Case.Basic

/-!
# Looking for a test case

Expressions are drawn one after another until one has a value. One without a
value either ends the search or costs an attempt, as the options say, and any
other failure ends it. The source is left just behind the last expression that
was drawn.
-/

namespace Arith64

/-- The failure of a search in which none of some number of expressions has a value. -/
def Failure.exhausted (attempts : Nat) : Failure :=
  .generation ("no fault-free expression after " ++ decimal attempts ++ " attempts")

namespace CaseOptions

variable {σ : Type} [RandomSource σ]

/-- Draws expressions until one has a value, at most `left` of them. The first is number
`attempt`. -/
def searchFrom (o : CaseOptions) :
    (left attempt : Nat) → StateM σ (Except Failure TestCase)
  | 0, _ => return .error (.exhausted o.maxAttempts.toNat)
  | left + 1, attempt => do
    let tree ← Expr.draw o.range o.maxDepth.toNat
    match TestCase.ofTree tree with
    | .ok found => return .ok { found with attempts := attempt }
    | .error failure =>
      if failure.isEvaluation ∧ o.faultPolicy = .regenerate then searchFrom o left (attempt + 1)
      else return .error failure

/-- Draws a test case. Options that no case can come from draw nothing. -/
def drawCase (o : CaseOptions) : StateM σ (Except Failure TestCase) :=
  match o.validate with
  | .error invalid => return .error (.config invalid.message)
  | .ok () => o.searchFrom o.maxAttempts.toNat 1

end CaseOptions

end Arith64

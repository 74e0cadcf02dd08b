import Arith64.Case.Emission
import Arith64.Case.Search

/-!
# Many test cases

Cases are drawn from one source one after another and written behind each
other. The first one that cannot be made ends the writing, and what was
written before it stays.
-/

namespace Arith64

/-- What has been written, and which case could not be made, if one could not. -/
structure Corpus where
  text : String
  failed : Option (Nat × Failure)

variable {σ : Type} [RandomSource σ]

/-- Draws `left` more cases, the first of them number `index`, and writes them behind `text`. -/
def CaseOptions.corpusFrom (o : CaseOptions) (format : EmitFormat) :
    (left index : Nat) → (text : String) → StateM σ Corpus
  | 0, _, text => return ⟨text, none⟩
  | left + 1, index, text => do
    match ← o.drawCase with
    | .ok c => corpusFrom o format left (index + 1) (text ++ c.emit format)
    | .error failure => return ⟨text, some (index, failure)⟩

/-- Draws cases one after another and writes them, up to the first that cannot be made. -/
def CaseOptions.corpus (o : CaseOptions) (format : EmitFormat) (count : Nat) : StateM σ Corpus :=
  o.corpusFrom format count 0 ""

end Arith64

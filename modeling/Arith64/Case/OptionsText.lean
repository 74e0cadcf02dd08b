import Arith64.Case.Emission
import Arith64.Json.Record

/-!
# Options as text

The names of choices and the fields of the options in JSON, and the compact
text that gives every field. Reading does not ask whether a case can come from
the options.
-/

namespace Arith64

def LiteralRange.ofJson? : Json → Option LiteralRange := Json.choice? all name

def FaultPolicy.ofJson? : Json → Option FaultPolicy := Json.choice? all name

def EmitFormat.ofJson? : Json → Option EmitFormat := Json.choice? all name

namespace CaseOptions

/-- The fields of the options, in the order of declaration. -/
def fields : List (Json.Field CaseOptions) := [
  ⟨"max_depth", fun o value => value.word32?.map fun n => { o with maxDepth := n }⟩,
  ⟨"range", fun o value => (LiteralRange.ofJson? value).map fun r => { o with range := r }⟩,
  ⟨"fault_policy", fun o value =>
    (FaultPolicy.ofJson? value).map fun p => { o with faultPolicy := p }⟩,
  ⟨"max_attempts", fun o value => value.word32?.map fun n => { o with maxAttempts := n }⟩]

/-- The options that a JSON value makes of the defaults. -/
def ofJson? : Json → Option CaseOptions := Json.record? fields {}

def ofText? (text : String) : Option CaseOptions := (Json.parse? text).bind ofJson?

/-- The text of some options: an object with every field, in the order of declaration. -/
def text (o : CaseOptions) : String :=
  "\x7b\"max_depth\":" ++ decimal o.maxDepth.toNat ++
  ",\"range\":\"" ++ o.range.name ++
  "\",\"fault_policy\":\"" ++ o.faultPolicy.name ++
  "\",\"max_attempts\":" ++ decimal o.maxAttempts.toNat ++ "\x7d"

end CaseOptions

end Arith64

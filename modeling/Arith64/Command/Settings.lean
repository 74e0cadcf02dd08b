import Arith64.Case.OptionsText

/-!
# Settings of a run

What a run of case after case is made with. A request from the command line
leaves open what it does not say, a settings file does too, and what neither
says has a default.
-/

namespace Arith64

structure Settings where
  seed : Option UInt64 := none
  count : Option UInt32 := none
  format : Option EmitFormat := none
  options : CaseOptions := {}
  deriving DecidableEq

namespace Settings

/-- The fields of a settings file, in the order of declaration. -/
def fields : List (Json.Field Settings) := [
  ⟨"seed", fun s value =>
    (Json.nullable? Json.word64? value).map fun n => { s with seed := n }⟩,
  ⟨"count", fun s value =>
    (Json.nullable? Json.word32? value).map fun n => { s with count := n }⟩,
  ⟨"format", fun s value =>
    (Json.nullable? EmitFormat.ofJson? value).map fun f => { s with format := f }⟩,
  ⟨"case", fun s value => (CaseOptions.ofJson? value).map fun o => { s with options := o }⟩]

def ofText? (text : String) : Option Settings := (Json.parse? text).bind (Json.record? fields {})

end Settings

structure GenRequest where
  config : Option String := none
  depth : Option UInt32 := none
  range : Option LiteralRange := none
  seed : Option UInt64 := none
  count : Option UInt32 := none
  format : Option EmitFormat := none
  policy : Option FaultPolicy := none
  maxAttempts : Option UInt32 := none
  out : Option String := none
  deriving DecidableEq

/-- Everything that decides about a run, but for a seed that nobody gave. -/
structure Plan where
  seed : Option UInt64
  count : UInt32
  format : EmitFormat
  options : CaseOptions
  out : Option String
  deriving DecidableEq

/-- What a request says wins over what the settings say. -/
def GenRequest.plan (r : GenRequest) (s : Settings) : Plan where
  seed := r.seed.or s.seed
  count := (r.count.or s.count).getD 1
  format := (r.format.or s.format).getD .template
  options :=
    { maxDepth := r.depth.getD s.options.maxDepth
      range := r.range.getD s.options.range
      faultPolicy := r.policy.getD s.options.faultPolicy
      maxAttempts := r.maxAttempts.getD s.options.maxAttempts }
  out := r.out

end Arith64

import Arith64.Reference.Read
import Arith64.Machine.Run

/-!
# Failures

Whatever goes wrong between a text and a test case ends up as one of these.
The parts of the library have causes of their own. Here they meet, with their
reasons in words.
-/

namespace Arith64

/-- Why there is no result. -/
inductive Failure where
  /-- A text is not an expression. -/
  | parse (offset : Nat) (reason : String)
  /-- An expression has no value. -/
  | fault (fault : Fault)
  /-- A program is ill-made. -/
  | malformed (reason : String)
  /-- No expression that was drawn has a value. -/
  | generation (reason : String)
  /-- No case can come from the options. -/
  | config (reason : String)
  /-- Anything else. -/
  | other (reason : String)
  deriving DecidableEq

namespace Failure

/-- The failure that a syntax error comes to. -/
def ofSyntaxError (e : SyntaxError) : Failure := parse e.offset e.cause.message

/-- The failure that a halt of the machine comes to. -/
def ofHalt : Halt → Failure
  | .fault f => fault f
  | .malformed d => malformed d.message

/-- Whether there was an expression and its program came to no value. -/
def isEvaluation : Failure → Bool
  | fault _ | malformed _ => true
  | _ => false

/-- The part of a failure that it wraps, in words. -/
def inner? : Failure → Option String
  | parse offset reason => some (placedMessage offset reason)
  | fault f => some f.message
  | malformed reason => some (malformedMessage reason)
  | _ => none

/-- A failure in words. -/
def message : Failure → String
  | parse offset reason => "parse error: " ++ placedMessage offset reason
  | fault f => "evaluation error: " ++ f.message
  | malformed reason => "evaluation error: " ++ malformedMessage reason
  | generation reason => "generation error: " ++ reason
  | config reason => "config error: " ++ reason
  | other reason => reason

/-- A failure in words, and after it what it wraps. -/
def chain (f : Failure) : List String := f.message :: f.inner?.toList

end Failure

/-- The value of an expression, by way of the machine. -/
def Expr.compute (e : Expr) : Except Failure Int64 := e.evaluate.mapError .ofHalt

/-- The value of the expression that a reference text stands for. -/
def computeText (text : String) : Except Failure Int64 := do
  let e ← (Expr.parse text).mapError .ofSyntaxError
  e.compute

end Arith64

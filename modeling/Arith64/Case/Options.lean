import Arith64.Failure
import Arith64.Expr.Random

/-!
# Options for making a test case

How deep an expression may be, where its literals come from, what happens to
one without a value, and how often another one is drawn.
-/

namespace Arith64

/-- What to do with an expression that has no value. -/
inductive FaultPolicy where
  /-- Forget it and draw another one. -/
  | regenerate
  /-- Give up and say so. -/
  | fail
  deriving DecidableEq

namespace FaultPolicy

def name : FaultPolicy → String
  | regenerate => "regenerate"
  | fail => "fail"

def all : List FaultPolicy := [regenerate, fail]

end FaultPolicy

structure CaseOptions where
  maxDepth : UInt32 := 10
  range : LiteralRange := .full
  faultPolicy : FaultPolicy := .regenerate
  maxAttempts : UInt32 := 64
  deriving DecidableEq

namespace CaseOptions

/-- The greatest depth that can be asked for. Trees grow like the 1.4th power of it. -/
def depthLimit : UInt32 := 32

inductive Invalid where
  | noAttempts
  | tooDeep (depth : UInt32)
  deriving DecidableEq

def Invalid.message : Invalid → String
  | noAttempts => "max_attempts must be at least 1"
  | tooDeep depth =>
    "max_depth " ++ decimal depth.toNat ++ " exceeds the limit of " ++ decimal depthLimit.toNat

/-- Refuses options that no case can come from. The attempts are looked at before the depth. -/
def validate (o : CaseOptions) : Except Invalid Unit :=
  if o.maxAttempts = 0 then .error .noAttempts
  else if depthLimit < o.maxDepth then .error (.tooDeep o.maxDepth)
  else .ok ()

end CaseOptions

end Arith64

import Arith64.Machine.Program
import Arith64.Text.Decimal

/-!
# Running a program

The machine works on a stack of words, here a list with the topmost one first.
A run starts from an empty stack, whatever was on it, and has to end with
exactly one value. A run that stops early says why and what is left.
-/

namespace Arith64

/-- The values of the machine, the topmost one first. -/
abbrev Stack := List Int64

/-- A stack without its values. -/
def Stack.cleared (stack : Stack) : Stack := stack.drop stack.length

inductive Defect where
  /-- An instruction names a constant that the table does not have. -/
  | constantOutOfRange
  /-- An instruction takes more values than the stack has. -/
  | stackUnderflow
  /-- The program ends with this many values and not with one. -/
  | leftover (count : Nat)
  deriving DecidableEq

def Defect.message : Defect → String
  | constantOutOfRange => "const idx out of range"
  | stackUnderflow => "stack underflow"
  | leftover count => "stack has " ++ decimal count ++ " values at end of program"

inductive Halt where
  | fault (fault : Fault)
  | malformed (defect : Defect)
  deriving DecidableEq

/-- A defect as the message of a run. -/
def malformedMessage (reason : String) : String := "malformed program: " ++ reason

def Halt.message : Halt → String
  | fault f => f.message
  | malformed d => malformedMessage d.message

/-- A run that stopped, with the stack as it was then. -/
structure Stopped where
  reason : Halt
  stack : Stack
  deriving DecidableEq

theorem Stack.cleared_eq_nil (stack : Stack) : stack.cleared = [] := by
  simp [Stack.cleared]

/-- One step. The right operand is on top, and both operands are gone when an operator faults. -/
def Instr.step (constants : Array Int64) : Instr → Stack → Except Stopped Stack
  | push index, stack =>
    match constants[index.toNat]? with
    | some value => .ok (value :: stack)
    | none => .error ⟨.malformed .constantOutOfRange, stack⟩
  | negate, value :: stack => .ok (-value :: stack)
  | negate, [] => .error ⟨.malformed .stackUnderflow, []⟩
  | operate op, right :: left :: stack =>
    match op.apply left right with
    | .ok value => .ok (value :: stack)
    | .error fault => .error ⟨.fault fault, stack⟩
  | operate _, _ => .error ⟨.malformed .stackUnderflow, []⟩

def exec (constants : Array Int64) : List Instr → Stack → Except Stopped Stack
  | [], stack => .ok stack
  | instr :: code, stack =>
    match instr.step constants stack with
    | .ok stack => exec constants code stack
    | .error stopped => .error stopped

theorem exec_append (constants : Array Int64) (code more : List Instr) (stack : Stack) :
    exec constants (code ++ more) stack =
      match exec constants code stack with
      | .ok stack => exec constants more stack
      | .error stopped => .error stopped := by
  induction code generalizing stack with
  | nil => rfl
  | cons instr code ih =>
    simp only [List.cons_append, exec]
    cases instr.step constants stack with
    | ok next => exact ih next
    | error stopped => rfl

namespace Program

/-- Clears a stack and runs a program on it. Gives the value and what the run leaves there. -/
def run (p : Program) (stack : Stack) : Except Halt Int64 × Stack :=
  match exec p.constants p.code stack.cleared with
  | .error stopped => (.error stopped.reason, stopped.stack)
  | .ok [value] => (.ok value, [])
  | .ok stack => (.error (.malformed (.leftover stack.length)), stack)

end Program

def Expr.evaluate (e : Expr) : Except Halt Int64 := (e.program.run []).1

end Arith64

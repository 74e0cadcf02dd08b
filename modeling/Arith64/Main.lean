import Arith64.Command.Run

/-!
# The program

The command line on a disk: files are read and written where their paths say,
and the clock is the one of the system.
-/

namespace Arith64

/-- What the system said, sorted by what a path came to. -/
def FileError.ofSystem : IO.Error → FileError
  | .noFileOrDirectory .. => .notFound
  | .alreadyExists .. => .alreadyThere
  | .inappropriateType _ code details =>
    if code = 21 then .isDirectory else if code = 20 then .notDirectory else .other details
  | .invalidArgument _ code details => if code = 36 then .nameTooLong else .other details
  | e => .other e.toString

/-- An action, with what the system says of its failure as a value. -/
def caught {α : Type} (action : IO α) : IO (Except FileError α) := do
  match ← action.toBaseIO with
  | .ok value => return .ok value
  | .error e => return .error (.ofSystem e)

/-- The files of the disk and the clock of the system. -/
def Host.disk : Host IO where
  openText path := do
    match ← caught (IO.FS.Handle.mk path .read) with
    | .error e => return .error e
    | .ok _ =>
      match ← caught (IO.FS.readFile path) with
      | .ok text => return .ok (some text)
      | .error _ => return .ok none
  makeDirectories path :=
    if path.isEmpty then return .ok () else caught (IO.FS.createDirAll path)
  writeText path text := caught (IO.FS.writeFile path text)
  clock := return UInt64.ofNat (← IO.monoNanosNow)

end Arith64

def main (words : List String) : IO UInt32 := do
  let outcome ← Arith64.runWords Arith64.Host.disk words
  (← IO.getStderr).putStr outcome.stderr
  (← IO.getStdout).putStr outcome.stdout
  return outcome.exitCode

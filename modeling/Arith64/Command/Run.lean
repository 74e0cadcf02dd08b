import Arith64.Case.Corpus
import Arith64.Command.Arguments
import Arith64.Command.Workspace
import Arith64.Random.Keystream

/-!
# Running a command

A command reads at most one file and writes at most one. Where these files are
is left to a host, so that a run on a disk and a run on a workspace in memory
are the same run. What a run shows is an exit code and two texts.
-/

namespace Arith64

/-! ## Hosts -/

/-- What a run needs from the outside. -/
structure Host (m : Type → Type) where
  /-- The text of a file, or nothing if what opens holds no text. -/
  openText : (path : String) → m (Except FileError (Option String))
  makeDirectories : (path : String) → m (Except FileError Unit)
  /-- Writes a file, a new one or over the old one. -/
  writeText : (path text : String) → m (Except FileError Unit)
  /-- A number to start from when nobody gives one. -/
  clock : m UInt64

/-- A workspace in memory, and a clock that stands still. -/
def Host.ofWorkspace (time : UInt64) : Host (StateM Workspace) where
  openText path := return (← get).openText path
  makeDirectories path := modifyGet fun w => w.makeDirectories path
  writeText path text := modifyGet fun w => w.writeText path text
  clock := return time

/-! ## Reports -/

structure Outcome where
  exitCode : UInt32
  stdout : String
  stderr : String
  deriving DecidableEq

/-- An error, and under it its causes, with numbers if there is more than one. -/
def errorReport (headline : String) (causes : List String) : String :=
  let lines :=
    match causes with
    | [cause] => "    " ++ cause ++ "\n"
    | causes => String.join (causes.zipIdx.map fun (cause, index) =>
        "    " ++ decimal index ++ ": " ++ cause ++ "\n")
  "Error: " ++ headline ++ "\n" ++ if causes.isEmpty then "" else "\nCaused by:\n" ++ lines

/-- The end of a run that failed, behind what it said before. -/
def Outcome.failed (said headline : String) (causes : List String) : Outcome :=
  ⟨1, "", said ++ errorReport headline causes⟩

/-! ## Commands -/

def runEval (text : String) : Outcome :=
  match computeText text with
  | .ok value => ⟨0, decimalWord value ++ "\n", ""⟩
  | .error failure => .failed "" ("evaluate '" ++ text ++ "'") failure.chain

namespace Plan

/-- The line that says where the random words come from. -/
def seedLine (seed : UInt64) : String := "seed: " ++ decimal seed.toNat ++ "\n"

/-- The cases of a plan, from the start of the stream of a seed. -/
def corpus (p : Plan) (seed : UInt64) : Corpus :=
  (p.options.corpus p.format p.count.toNat (Keystream.ofSeed seed)).1

/-- What a run says of a case that could not be made. -/
def caseReport (seed : UInt64) (index : Nat) (failure : Failure) : String :=
  errorReport ("generate case " ++ decimal index ++ " (seed " ++ decimal seed.toNat ++ ")")
    failure.chain

variable {m : Type → Type} [Monad m]

/-- Makes the cases of a plan and writes them where it says. -/
def runWith (p : Plan) (host : Host m) (seed : UInt64) : m Outcome := do
  let corpus := p.corpus seed
  let said := seedLine seed
  match p.out with
  | none =>
    match corpus.failed with
    | none => return ⟨0, corpus.text, said⟩
    | some (index, failure) => return ⟨1, corpus.text, said ++ caseReport seed index failure⟩
  | some path =>
    let parent := parentPath path
    match ← host.makeDirectories parent with
    | .error e => return .failed said ("create output dir '" ++ parent ++ "'") [e.message]
    | .ok () =>
      match ← host.writeText path corpus.text with
      | .error e => return .failed said ("create output '" ++ path ++ "'") [e.message]
      | .ok () =>
        match corpus.failed with
        | none => return ⟨0, "", said ++ "wrote " ++ path ++ "\n"⟩
        | some (index, failure) => return ⟨1, "", said ++ caseReport seed index failure⟩

/-- Makes cases, unless the options allow none. In that case nothing is touched. -/
def run (p : Plan) (host : Host m) : m Outcome :=
  match p.options.validate with
  | .error invalid => return .failed "" (Failure.config invalid.message).message []
  | .ok () => do
    let seed ← match p.seed with
      | some seed => pure seed
      | none => host.clock
    p.runWith host seed

end Plan

variable {m : Type → Type} [Monad m]

/-- Reads the settings that a request names, if it names any, and runs the plan of both. -/
def GenRequest.run (r : GenRequest) (host : Host m) : m Outcome :=
  match r.config with
  | none => (r.plan {}).run host
  | some path => do
    match ← host.openText path with
    | .error e => return .failed "" ("open config '" ++ path ++ "'") [e.message]
    | .ok text =>
      match text.bind Settings.ofText? with
      | some settings => (r.plan settings).run host
      | none => return .failed "" ("parse config JSON '" ++ path ++ "'") []

def versionText : String := "exprfuzz 0.1.0\n"

def usageText : String :=
  "Generate differential test cases for 64-bit integer arithmetic\n\n" ++
  "Usage: exprfuzz gen [--config F] [--depth N] [--full-range | --small-range] [--seed S]\n" ++
  "                    [--count K] [--format template|json] [--policy regenerate|fail]\n" ++
  "                    [--max-attempts M] [--out F]\n" ++
  "       exprfuzz eval EXPR\n"

def Command.run (host : Host m) : Command → m Outcome
  | version => return ⟨0, versionText, ""⟩
  | help => return ⟨0, usageText, ""⟩
  | eval text => return runEval text
  | gen request => request.run host

/-- Does what the words of a command line ask for. Words that ask for nothing are told the usage. -/
def runWords (host : Host m) (words : List String) : m Outcome :=
  match Command.ofWords? words with
  | some command => command.run host
  | none => return ⟨2, "", usageText⟩

end Arith64

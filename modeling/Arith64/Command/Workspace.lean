/-!
# Files and paths

The files a run works on, in directories, and what can go wrong with a path. A
path is a row of names between slashes, read from left to right: a name enters
a directory or comes to a file, a single dot or nothing stays, and two dots go
one directory up. A slash in front starts at the root of the system, and any
other path starts at the top of the workspace.
-/

namespace Arith64

/-! ## What can go wrong -/

/-- What the system says when a path does not lead where it should. -/
inductive FileError where
  | notFound
  | alreadyThere
  | notDirectory
  | isDirectory
  | nameTooLong
  | other (reason : String)
  deriving DecidableEq

def FileError.message : FileError → String
  | notFound => "No such file or directory (os error 2)"
  | alreadyThere => "File exists (os error 17)"
  | notDirectory => "Not a directory (os error 20)"
  | isDirectory => "Is a directory (os error 21)"
  | nameTooLong => "File name too long (os error 36)"
  | other reason => reason

/-! ## Paths -/

def nameLimit : Nat := 255

def pathLimit : Nat := 4095

/-- The runs of characters between the slashes of a text, also the empty ones. -/
def runsBetweenSlashes : List Char → List (List Char)
  | [] => [[]]
  | c :: cs =>
    if c = '/' then [] :: runsBetweenSlashes cs
    else
      match runsBetweenSlashes cs with
      | [] => [[c]]
      | run :: runs => (c :: run) :: runs

/-- The names between the slashes of a path, if it is not too long. -/
def pathNames? (path : String) : Except FileError (List String) :=
  if pathLimit < path.utf8ByteSize then .error .nameTooLong
  else .ok ((runsBetweenSlashes path.toList).map String.ofList)

/-- Whether a name in a path stays where it is. -/
def staysPut (name : String) : Bool := name == "" || name == "."

/-- A row of names without those at its end that some test holds of. -/
def dropEnd (holds : String → Bool) (names : List String) : List String :=
  (names.reverse.dropWhile holds).reverse

/-- The path of the directory that a path lies in, or nothing if it is a bare name. -/
def parentPath (path : String) : String :=
  match (runsBetweenSlashes path.toList).map String.ofList with
  | [] => ""
  | first :: names =>
    match dropEnd staysPut names with
    | [] => ""
    | names => "/".intercalate (first :: dropEnd staysPut names.dropLast)

/-! ## A workspace -/

/-- The names that lead to a place from the root of the system. -/
abbrev Place := List String

/-- The top of every workspace. No path can spell these names, so none comes here from the root. -/
def Place.top : Place := ["/", "/"]

/-- The directories that a system has at its root. -/
def systemDirectories : List Place :=
  ["bin", "dev", "etc", "home", "lib", "proc", "root", "sys", "tmp", "usr", "var"].map ([·])

def nullDevice : Place := ["dev", "null"]

/-- Files with their texts, and the directories that are there apart from the root and the top. -/
structure Workspace where
  files : List (Place × String) := [(nullDevice, "")]
  directories : List Place := systemDirectories

inductive Located where
  | directory (place : Place)
  | file (place : Place) (text : String)
  | missing (place : Place)

/-- The place of a directory. Nothing else can be gone on from. -/
def Located.asDirectory : Located → Except FileError Place
  | directory place => .ok place
  | file _ _ => .error .notDirectory
  | missing _ => .error .notFound

namespace Workspace

def at? (w : Workspace) (place : Place) : Located :=
  if place ∈ w.directories then .directory place
  else
    match w.files.lookup place with
    | some text => .file place text
    | none => .missing place

/-- What one name comes to in a directory. -/
def enter (w : Workspace) (place : Place) (name : String) : Except FileError Located :=
  if staysPut name then .ok (.directory place)
  else if name = ".." then .ok (.directory place.dropLast)
  else if nameLimit < name.utf8ByteSize then .error .nameTooLong
  else .ok (w.at? (place ++ [name]))

/-- Goes on along some names from what has been reached. -/
def follow (w : Workspace) : Located → List String → Except FileError Located
  | here, [] => .ok here
  | here, name :: names =>
    match here.asDirectory with
    | .error e => .error e
    | .ok place =>
      match w.enter place name with
      | .error e => .error e
      | .ok next => w.follow next names

/-- Where a path with these names starts. -/
def start (names : List String) : Place :=
  if names.head? = some "" ∧ names ≠ [""] then [] else Place.top

def locate (w : Workspace) (path : String) : Except FileError Located := do
  let names ← pathNames? path
  w.follow (.directory (start names)) names

/-- Opens a file. A directory opens too, but there is no text in it. -/
def openText (w : Workspace) (path : String) : Except FileError (Option String) :=
  match w.locate path with
  | .ok (.file _ text) => .ok (some text)
  | .ok (.directory _) => .ok none
  | .ok (.missing _) => .error .notFound
  | .error e => .error e

/-- Makes the directories along some names from a place on. Those made before a failure stay. A
file in the way is no directory while every name so far was there already; behind a directory
that had to be made, or as the last name, it is one thing too many at that place. -/
def makeAlong (w : Workspace) (made : Bool) (place : Place) :
    List String → Except FileError Unit × Workspace
  | [] => (.ok (), w)
  | name :: names =>
    match w.enter place name with
    | .error e => (.error e, w)
    | .ok (.directory next) => w.makeAlong made next names
    | .ok (.missing next) =>
      makeAlong { w with directories := next :: w.directories } true next names
    | .ok (.file _ _) =>
      (.error (if made || names.isEmpty then .alreadyThere else .notDirectory), w)

def makeDirectories (w : Workspace) (path : String) : Except FileError Unit × Workspace :=
  match pathNames? path with
  | .error e => (.error e, w)
  | .ok names => w.makeAlong false (start names) names

/-- Where a path says that a file is to be written. A slash behind the last name asks for a
directory, whatever stands there. -/
def target (w : Workspace) (path : String) : Except FileError Place := do
  let names ← pathNames? path
  let bare := dropEnd (· == "") names
  let parent ← (← w.follow (.directory (start names)) bare.dropLast).asDirectory
  match bare.getLast? with
  | none => .error .isDirectory
  | some name =>
    if bare.length < names.length then .error .isDirectory
    else
      match ← w.enter parent name with
      | .directory _ => .error .isDirectory
      | .file place _ => .ok place
      | .missing place => .ok place

/-- Writes a file, a new one or over the old one. -/
def writeText (w : Workspace) (path text : String) : Except FileError Unit × Workspace :=
  match w.target path with
  | .ok place => (.ok (), { w with files := (place, text) :: w.files.filter (·.1 ≠ place) })
  | .error e => (.error e, w)

/-- The workspace with some files and the directories that they lie in. -/
def ofFiles (files : List (String × String)) : Workspace :=
  files.foldl
    (fun w (path, text) => ((w.makeDirectories (parentPath path)).2.writeText path text).2) {}

end Workspace

end Arith64

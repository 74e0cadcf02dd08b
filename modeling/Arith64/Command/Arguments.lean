import Arith64.Command.Settings

/-!
# The words of a command line

Words are read from left to right, and the first one that settles the matter
ends the reading. An option is a word of its own with its value in the next
word, or one word with an equals sign between the two. Nothing may be given
twice.
-/

namespace Arith64

inductive Command where
  | version
  | help
  | eval (text : String)
  | gen (request : GenRequest)
  deriving DecidableEq

/-! ## Numbers -/

/-- A number of 32 bits. Zero may have a minus sign. -/
def word32OfText? (text : String) : Option UInt32 := do
  let (negative, digits) := splitSign text
  let n ← natural? digits
  if n < UInt32.size ∧ (negative → n = 0) then some (UInt32.ofNat n) else none

/-- A number of 64 bits without a minus sign. -/
def word64OfText? (text : String) : Option UInt64 := do
  let (negative, digits) := splitSign text
  let n ← natural? digits
  if n < UInt64.size ∧ ¬negative then some (UInt64.ofNat n) else none

def path? (text : String) : Option String := if text.isEmpty then none else some text

/-- One of some choices by its name. -/
def choiceOfText? {α : Type} (choices : List α) (name : α → String) (text : String) : Option α :=
  choices.find? fun a => name a == text

/-! ## Options -/

/-- Fills a place that is still open. -/
def fillOnce {α : Type} (place value : Option α) : Option (Option α) :=
  match place, value with
  | none, some v => some (some v)
  | _, _ => none

namespace GenRequest

/-- Puts the value of an option into a request. -/
def put (r : GenRequest) (option value : String) : Option GenRequest :=
  match option with
  | "--config" => (fillOnce r.config (path? value)).map fun v => { r with config := v }
  | "--depth" => (fillOnce r.depth (word32OfText? value)).map fun v => { r with depth := v }
  | "--seed" => (fillOnce r.seed (word64OfText? value)).map fun v => { r with seed := v }
  | "--count" => (fillOnce r.count (word32OfText? value)).map fun v => { r with count := v }
  | "--format" =>
    (fillOnce r.format (choiceOfText? EmitFormat.all EmitFormat.name value)).map fun v =>
      { r with format := v }
  | "--policy" =>
    (fillOnce r.policy (choiceOfText? FaultPolicy.all FaultPolicy.name value)).map fun v =>
      { r with policy := v }
  | "--max-attempts" =>
    (fillOnce r.maxAttempts (word32OfText? value)).map fun v => { r with maxAttempts := v }
  | "--out" => (fillOnce r.out (path? value)).map fun v => { r with out := v }
  | _ => none

/-- The range that an option without a value stands for. -/
def rangeOfFlag? : String → Option LiteralRange
  | "--full-range" => some .full
  | "--small-range" => some .small
  | _ => none

/-- Whether a word can be the value of the option before it. -/
def isValue (word : String) : Bool := word == "-" || word.toList.head? != some '-'

end GenRequest

/-- The two sides of the first equals sign. -/
def splitEquals? (word : String) : Option (String × String) :=
  let cs := word.toList
  match cs.dropWhile (· != '=') with
  | _ :: value => some (String.ofList (cs.takeWhile (· != '=')), String.ofList value)
  | [] => none

/-- Whether a word is some flags in one, the first of them this one. -/
def startsWithFlag (flag : Char) (word : String) : Bool := word.toList.take 2 == ['-', flag]

namespace Command

def readGen (r : GenRequest) : List String → Option Command
  | [] => some (.gen r)
  | ["--"] => some (.gen r)
  | word :: words =>
    if word = "--help" ∨ startsWithFlag 'h' word then some .help
    else
      match GenRequest.rangeOfFlag? word with
      | some range => do
        let range ← fillOnce r.range (some range)
        readGen { r with range } words
      | none =>
        match splitEquals? word with
        | some (option, value) => do readGen (← r.put option value) words
        | none =>
          match words with
          | value :: words =>
            if GenRequest.isValue value then do readGen (← r.put word value) words else none
          | [] => none

/-- Reads the words behind `eval`. Any word but a call for help can be the text. -/
def readEval : List String → Option Command
  | "--" :: text :: rest => if rest.isEmpty then some (.eval text) else none
  | [] => none
  | text :: rest =>
    let isShortHelp := startsWithFlag 'h' text && text.toList.tail.all (· == 'h')
    if text = "--help" ∨ isShortHelp then some .help
    else if text = "--" ∨ (splitEquals? text).any (·.1 == "--help") then none
    else if rest.isEmpty ∨ rest = ["--"] then some (.eval text)
    else none

def readHelp : List String → Option Command
  | [] | ["gen"] | ["eval"] | ["help"] => some .help
  | _ => none

def ofWords? : List String → Option Command
  | "gen" :: words => readGen {} words
  | "eval" :: words => readEval words
  | "help" :: words => readHelp words
  | word :: _ =>
    if word = "--version" ∨ startsWithFlag 'V' word then some .version
    else if word = "--help" ∨ startsWithFlag 'h' word then some .help
    else none
  | [] => none

end Command

end Arith64

import Arith64.Case.Basic

/-!
# Test cases as text

A template emission is two statements for the program under test: print the
expected value, then print the value of the target text. The other format is
one JSON object on a line. The texts of a case are ASCII, so that one character
is one byte.
-/

namespace Arith64

/-! ## Texts between quotes -/

/-- A character as it is written in a JSON string. What would end the string, start an escape or
break the line stands behind a backslash. -/
def Json.escape : Char → List Char
  | '"' => ['\\', '"']
  | '\\' => ['\\', '\\']
  | '\x08' => ['\\', 'b']
  | '\x0c' => ['\\', 'f']
  | '\n' => ['\\', 'n']
  | '\r' => ['\\', 'r']
  | '\t' => ['\\', 't']
  | c =>
    if c < ' ' then
      ['\\', 'u', '0', '0', Nat.digitChar (c.toNat / 16), Nat.digitChar (c.toNat % 16)]
    else [c]

def Json.quoted (text : String) : String :=
  "\"" ++ String.ofList (text.toList.flatMap escape) ++ "\""

/-! ## Formats -/

inductive EmitFormat where
  | template
  | json
  deriving DecidableEq

namespace EmitFormat

def name : EmitFormat → String
  | template => "template"
  | json => "json"

def all : List EmitFormat := [template, json]

end EmitFormat

/-! ## Cases -/

namespace TestCase

/-- The two statements of a case. -/
def template (c : TestCase) : String :=
  "    print(\"" ++ decimalWord c.expected ++ " = \")\n" ++
  "    println(unparseInt(" ++ c.target ++ "))\n"

def json (c : TestCase) : String :=
  "\x7b\"expected\":" ++ decimalWord c.expected ++
  ",\"target\":" ++ Json.quoted c.target ++
  ",\"reference\":" ++ Json.quoted c.reference ++
  ",\"attempts\":" ++ decimal c.attempts ++ "\x7d\n"

def emit (c : TestCase) : EmitFormat → String
  | .template => c.template
  | .json => c.json

/-- What a buffer of some bytes holds after a case was written to it, and whether all of it fits. -/
def emitWithin (c : TestCase) (format : EmitFormat) (capacity : Nat) :
    String × Except Failure Unit :=
  let text := c.emit format
  if text.utf8ByteSize ≤ capacity then (text, .ok ())
  else
    (String.ofList (text.toList.take capacity), .error (.other "failed to write whole buffer"))

end TestCase

end Arith64

import Arith64.Reference.Token

/-!
# What can be wrong with a reference text

A syntax error has a place, in bytes, and a cause. The wording is here and
nowhere else.
-/

namespace Arith64

inductive SyntaxCause where
  | strayCharacter (character : Char)
  /-- The digits stand for a number of more than 64 bits. -/
  | integerTooLarge (digits : String)
  /-- The expression that starts here is inside too many others. -/
  | nestedTooDeeply
  /-- No expression starts with this lexeme. -/
  | unexpected (found : Lexeme)
  /-- Only one lexeme can stand here. -/
  | expected (wanted found : Lexeme)
  /-- A group has to end here, or an infix operator has to follow. -/
  | expectedInfix (found : Lexeme)
  /-- A literal has to have its digits here. -/
  | expectedInteger (found : Lexeme)
  | unknownFunction (name : String)
  /-- The literal is not a signed 64-bit number. -/
  | literalOutOfRange
  deriving DecidableEq

def SyntaxCause.message : SyntaxCause → String
  | strayCharacter character => "unexpected character '" ++ String.singleton character ++ "'"
  | integerTooLarge digits => "integer literal '" ++ digits ++ "' is too large"
  | nestedTooDeeply => "expression nested too deeply"
  | unexpected found => "unexpected token " ++ found.label
  | expected wanted found => "expected " ++ wanted.label ++ ", found " ++ found.label
  | expectedInfix found => "expected ')' or one of '+', '-', '*', found " ++ found.label
  | expectedInteger found => "expected integer literal, found " ++ found.label
  | unknownFunction name => "unknown function '" ++ name ++ "'"
  | literalOutOfRange => "integer literal out of range for i64"

/-- A cause and the byte at which it shows. -/
structure SyntaxError where
  offset : Nat
  cause : SyntaxCause
  deriving DecidableEq

/-- An offset and a wording as one line. -/
def placedMessage (offset : Nat) (reason : String) : String :=
  "at byte " ++ decimal offset ++ ": " ++ reason

/-- The place and the wording of an error. -/
def SyntaxError.message (e : SyntaxError) : String := placedMessage e.offset e.cause.message

end Arith64

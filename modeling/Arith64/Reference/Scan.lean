import Arith64.Reference.SyntaxError

/-!
# From text to tokens

A text is cut into the longest pieces that are lexemes: runs of digits, names,
and single marks. Blanks only separate. The first character that starts no
lexeme, or the first run of digits over 64 bits, ends the reading.
-/

namespace Arith64

/-! ## Classes of characters -/

/-- Whether a character only separates: space, tab, line feed, form feed, carriage return. -/
def isBlank (c : Char) : Bool :=
  c == ' ' || c == '\t' || c == '\n' || c == '\x0c' || c == '\r'

/-- Whether a name can start with a character: ASCII letters and the underscore. -/
def isNameStart (c : Char) : Bool := c.isAlpha || c == '_'

def isNamePart (c : Char) : Bool := c.isAlphanum || c == '_'

/-! ## Reading -/

/-- The token of a run of digits at a place, if its value fits 64 bits. -/
def Token.ofDigits (start : Nat) (digits : List Char) : Except SyntaxError Token :=
  let magnitude := digitsValue digits
  if magnitude < UInt64.size then .ok ⟨.integer magnitude, start, start + digits.length⟩
  else .error ⟨start, .integerTooLarge (String.ofList digits)⟩

def Token.ofName (start : Nat) (letters : List Char) : Token :=
  ⟨.name (String.ofList letters), start, start + letters.length⟩

/-- The tokens of a text that goes on at byte `pos`, behind those already read. -/
def scan (pos : Nat) (done : Array Token) : List Char → Except SyntaxError TokenStream
  | [] => .ok ⟨done.toList, pos⟩
  | c :: cs =>
    if isBlank c then scan (pos + 1) done cs
    else if c.isDigit then
      match Token.ofDigits pos (c :: cs.takeWhile Char.isDigit) with
      | .ok token => scan token.stop (done.push token) (cs.dropWhile Char.isDigit)
      | .error e => .error e
    else if isNameStart c then
      let token := Token.ofName pos (c :: cs.takeWhile isNamePart)
      scan token.stop (done.push token) (cs.dropWhile isNamePart)
    else
      match Lexeme.ofMark? c with
      | some lexeme => scan (pos + 1) (done.push ⟨lexeme, pos, pos + 1⟩) cs
      | none => .error ⟨pos, .strayCharacter c⟩
termination_by cs => cs.length
decreasing_by
  · simp
  · have := (List.dropWhile_suffix Char.isDigit (l := cs)).length_le
    simp only [List.length_cons]
    omega
  · have := (List.dropWhile_suffix isNamePart (l := cs)).length_le
    simp only [List.length_cons]
    omega
  · simp

def tokenize (text : String) : Except SyntaxError TokenStream := scan 0 #[] text.toList

end Arith64

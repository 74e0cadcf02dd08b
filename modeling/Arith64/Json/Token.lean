import Arith64.Text.Decimal

/-!
# Tokens of a JSON text

Settings are written in the part of JSON that has objects, lists, strings,
natural numbers and `null`. Any other token, such as a boolean, a sign, a
fraction or an exponent, is refused here, since no setting can hold it.
-/

namespace Arith64.Json

inductive Token where
  | openBrace
  | closeBrace
  | openBracket
  | closeBracket
  | colon
  | comma
  | null
  | natural (value : Nat)
  | text (value : String)
  deriving DecidableEq

def Token.ofMark? : Char → Option Token
  | '\x7b' => some openBrace
  | '\x7d' => some closeBrace
  | '[' => some openBracket
  | ']' => some closeBracket
  | ':' => some colon
  | ',' => some comma
  | _ => none

/-- Whether a character may stand between tokens: space, tab, line feed, carriage return. -/
def isSpace (c : Char) : Bool := c == ' ' || c == '\t' || c == '\n' || c == '\r'

/-! ## Numbers -/

/-- The number of a run of digits in front of some text. It has no leading zero and no part
behind a point or an exponent mark. -/
def natural? (digits rest : List Char) : Option Nat :=
  let leadingZero := digits.head? == some '0' && digits.length ≠ 1
  let goesOn := rest.head?.any fun c => c == '.' || c == 'e' || c == 'E'
  if leadingZero || goesOn then none else some (digitsValue digits)

/-! ## Strings -/

/-- The character that stands for itself, or for a control character, behind a backslash. -/
def escaped? : Char → Option Char
  | '"' => some '"'
  | '\\' => some '\\'
  | '/' => some '/'
  | 'b' => some '\x08'
  | 'f' => some '\x0c'
  | 'n' => some '\n'
  | 'r' => some '\r'
  | 't' => some '\t'
  | _ => none

def hexValue? (c : Char) : Option Nat :=
  if c.isDigit then some (c.toNat - '0'.toNat)
  else if 'a' ≤ c ∧ c ≤ 'f' then some (c.toNat - 'a'.toNat + 10)
  else if 'A' ≤ c ∧ c ≤ 'F' then some (c.toNat - 'A'.toNat + 10)
  else none

/-- The number of four hexadecimal digits. -/
def codeUnit? (a b c d : Char) : Option Nat := do
  return (((← hexValue? a) * 16 + (← hexValue? b)) * 16 + (← hexValue? c)) * 16 + (← hexValue? d)

/-- The character beyond the first plane that two halves of a surrogate pair stand for. -/
def pairedCharacter? (high low : Nat) : Option Char :=
  if 0xD800 ≤ high ∧ high < 0xDC00 ∧ 0xDC00 ≤ low ∧ low < 0xE000 then
    some (Char.ofNat (0x10000 + (high - 0xD800) * 0x400 + (low - 0xDC00)))
  else none

/-- The rest of a string whose characters so far are `done`, last one first, and what is behind
its closing quote. -/
def readText (done : List Char) : List Char → Option (String × List Char)
  | [] => none
  | '"' :: cs => some (String.ofList done.reverse, cs)
  | '\\' :: 'u' :: a :: b :: c :: d :: cs =>
    match codeUnit? a b c d with
    | none => none
    | some code =>
      if code.isValidChar then readText (Char.ofNat code :: done) cs
      else
        match cs with
        | '\\' :: 'u' :: e :: f :: g :: h :: cs =>
          match (codeUnit? e f g h).bind (pairedCharacter? code) with
          | some character => readText (character :: done) cs
          | none => none
        | _ => none
  | '\\' :: c :: cs =>
    match escaped? c with
    | some character => readText (character :: done) cs
    | none => none
  | c :: cs => if c < ' ' then none else readText (c :: done) cs

theorem length_of_readText {done cs : List Char} {value : String} {rest : List Char}
    (h : readText done cs = some (value, rest)) : rest.length < cs.length := by
  fun_induction readText done cs with
  | case1 | case3 | case6 | case7 | case9 | case10 => cases h
  | case2 => cases h; simp
  | case4 _ _ _ _ _ _ _ _ _ ih => have := ih h; simp only [List.length_cons]; omega
  | case5 _ _ _ _ _ _ _ _ _ _ _ _ _ _ _ ih => have := ih h; simp only [List.length_cons]; omega
  | case8 _ _ _ _ _ _ ih => have := ih h; simp only [List.length_cons]; omega
  | case11 _ _ _ _ _ _ _ ih => have := ih h; simp only [List.length_cons]; omega

/-! ## Texts -/

/-- The tokens of a text, behind those already read. -/
def tokensFrom (done : Array Token) : List Char → Option (List Token)
  | [] => some done.toList
  | c :: cs =>
    if isSpace c then tokensFrom done cs
    else if c.isDigit then
      let digits := c :: cs.takeWhile Char.isDigit
      let rest := cs.dropWhile Char.isDigit
      match natural? digits rest with
      | some value => tokensFrom (done.push (.natural value)) rest
      | none => none
    else if c = '"' then
      match _read : readText [] cs with
      | some (value, rest) => tokensFrom (done.push (.text value)) rest
      | none => none
    else if c = 'n' then
      if cs.take 3 = ['u', 'l', 'l'] then tokensFrom (done.push .null) (cs.drop 3) else none
    else
      match Token.ofMark? c with
      | some token => tokensFrom (done.push token) cs
      | none => none
termination_by cs => cs.length
decreasing_by
  · simp
  · have := (List.dropWhile_suffix Char.isDigit (l := cs)).length_le
    simp only [List.length_cons]
    omega
  · have := length_of_readText _read
    simp only [List.length_cons]
    omega
  · simp only [List.length_cons, List.length_drop]
    omega
  · simp

def tokens? (text : String) : Option (List Token) := tokensFrom #[] text.toList

end Arith64.Json

import Arith64.Text.Decimal

/-!
# Tokens of the reference dialect

What the pieces of a text are, where each one stands, and how a message names
them. Places are counted in bytes of the UTF-8 text.
-/

namespace Arith64

/-- What a piece of text is. A sign is a lexeme of its own, so integers have none. -/
inductive Lexeme where
  | name (text : String)
  | integer (magnitude : Nat)
  | openParen
  | closeParen
  | comma
  | plus
  | minus
  | star
  | endOfText
  deriving DecidableEq

namespace Lexeme

def ofMark? : Char → Option Lexeme
  | '(' => some openParen
  | ')' => some closeParen
  | ',' => some comma
  | '+' => some plus
  | '-' => some minus
  | '*' => some star
  | _ => none

/-- What kind of lexeme it is, in one word. -/
def kind : Lexeme → String
  | name _ => "Ident"
  | integer _ => "Int"
  | openParen => "LParen"
  | closeParen => "RParen"
  | comma => "Comma"
  | plus => "Plus"
  | minus => "Minus"
  | star => "Star"
  | endOfText => "Eof"

/-- How a message shows a lexeme: its kind, with what it holds in parentheses. -/
def label : Lexeme → String
  | name text => "Ident(\"" ++ text ++ "\")"
  | integer magnitude => "Int(" ++ decimal magnitude ++ ")"
  | other => other.kind

end Lexeme

/-- A lexeme and the bytes it covers, from `start` up to but without `stop`. -/
structure Token where
  lexeme : Lexeme
  start : Nat
  stop : Nat
  deriving DecidableEq

/-- The tokens of a text, and the byte at which the text ends. -/
structure TokenStream where
  tokens : List Token
  stop : Nat
  deriving DecidableEq

namespace TokenStream

/-- The mark that stands behind the last token. -/
def endMark (s : TokenStream) : Token := ⟨.endOfText, s.stop, s.stop⟩

/-- The next token. Behind the last one there is always the end of the text. -/
def front (s : TokenStream) : Token := s.tokens.headD s.endMark

/-- What is left behind the next token. -/
def rest (s : TokenStream) : TokenStream := ⟨s.tokens.tail, s.stop⟩

/-- The tokens with the end of the text among them. -/
def toList (s : TokenStream) : List Token := s.tokens ++ [s.endMark]

end TokenStream

end Arith64

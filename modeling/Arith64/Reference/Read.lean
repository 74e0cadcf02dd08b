import Arith64.Reference.Scan
import Arith64.Reference.Text

/-!
# From tokens to an expression

The reference dialect needs one token of foresight and no more: a minus sign,
an opening parenthesis or a name settles what follows. Every node of the tree
is one level of nesting, and a text may nest 512 levels.
-/

namespace Arith64

/-- How many expressions may stand one inside the other, the outermost one included. -/
def nestingLimit : Nat := 512

/-- The operator that a lexeme between two operands stands for. -/
def BinOp.ofInfix? : Lexeme → Option BinOp
  | .plus => some .add
  | .minus => some .sub
  | .star => some .mul
  | _ => none

/-- The word with a sign and a magnitude, if 64 bits hold it. -/
def signedWord? (negative : Bool) (magnitude : Nat) : Option Int64 :=
  let value : Int := if negative then -(magnitude : Int) else magnitude
  if Int64.minValue.toInt ≤ value ∧ value ≤ Int64.maxValue.toInt then some (Int64.ofInt value)
  else none

namespace TokenStream

/-- An error at the next token, worded after its lexeme. -/
def refuse {α : Type} (s : TokenStream) (cause : Lexeme → SyntaxCause) : Except SyntaxError α :=
  .error ⟨s.front.start, cause s.front.lexeme⟩

/-- Steps over the one lexeme that can stand here. -/
def expect (s : TokenStream) (wanted : Lexeme) : Except SyntaxError TokenStream :=
  if s.front.lexeme = wanted then .ok s.rest else s.refuse (.expected wanted)

/-- A literal behind its marker: parentheses around digits with an optional minus sign. -/
def readLiteral (s : TokenStream) : Except SyntaxError (Expr × TokenStream) := do
  let s ← s.expect .openParen
  let negative := s.front.lexeme == .minus
  let s := if negative then s.rest else s
  match s.front.lexeme with
  | .integer magnitude =>
    match signedWord? negative magnitude with
    | some value => do
      let s ← s.rest.expect .closeParen
      return (.literal value, s)
    | none => s.refuse fun _ => .literalOutOfRange
  | _ => s.refuse .expectedInteger

/-- One expression from the front, nested at most `budget` levels, and what is left behind it. -/
def readExpr : (budget : Nat) → TokenStream → Except SyntaxError (Expr × TokenStream)
  | 0, s => s.refuse fun _ => .nestedTooDeeply
  | budget + 1, s =>
    match s.front.lexeme with
    | .minus => do
      let (operand, s) ← readExpr budget s.rest
      return (.negate operand, s)
    | .openParen => do
      let (left, s) ← readExpr budget s.rest
      if s.front.lexeme = .closeParen then
        return (.group left, s.rest)
      else
        match BinOp.ofInfix? s.front.lexeme with
        | some op => do
          let (right, s) ← readExpr budget s.rest
          let s ← s.expect .closeParen
          return (.binary op left right, s)
        | none => s.refuse .expectedInfix
    | .name text =>
      if text = "i64" then s.rest.readLiteral
      else
        match BinOp.ofCallName? text with
        | some op => do
          let s ← s.rest.expect .openParen
          let (left, s) ← readExpr budget s
          let s ← s.expect .comma
          let (right, s) ← readExpr budget s
          let s ← s.expect .closeParen
          return (.binary op left right, s)
        | none => s.refuse fun _ => .unknownFunction text
    | _ => s.refuse .unexpected

end TokenStream

/-- The expression that a whole text stands for. -/
def Expr.parse (text : String) : Except SyntaxError Expr := do
  let s ← tokenize text
  let (e, s) ← TokenStream.readExpr nestingLimit s
  let _ ← s.expect .endOfText
  return e

end Arith64

import Arith64.Json.Token

/-!
# JSON values

What a JSON text stands for, read strictly: commas only between items, nothing
but spaces behind the value. The members of an object keep their order, and a
key may occur twice, which whoever reads the object can refuse.
-/

namespace Arith64

/-- A value of the part of JSON that settings use. -/
inductive Json where
  | null
  | natural (value : Nat)
  | text (value : String)
  | list (items : List Json)
  | object (members : List (String × Json))

namespace Json

mutual

/-- One value from the front of some tokens, and what is left behind it. The budget goes down by
one for every value inside another and for every item of a list or an object. -/
def readValue : (budget : Nat) → List Token → Option (Json × List Token)
  | 0, _ => none
  | budget + 1, tokens =>
    match tokens with
    | .null :: rest => some (.null, rest)
    | .natural value :: rest => some (.natural value, rest)
    | .text value :: rest => some (.text value, rest)
    | .openBracket :: .closeBracket :: rest => some (.list [], rest)
    | .openBracket :: rest => do
      let (items, rest) ← readItems budget rest
      return (.list items, rest)
    | .openBrace :: .closeBrace :: rest => some (.object [], rest)
    | .openBrace :: rest => do
      let (members, rest) ← readMembers budget rest
      return (.object members, rest)
    | _ => none

/-- The items of a list up to its closing bracket, at least one. -/
def readItems : (budget : Nat) → List Token → Option (List Json × List Token)
  | 0, _ => none
  | budget + 1, tokens => do
    let (item, rest) ← readValue budget tokens
    match rest with
    | .comma :: rest =>
      let (items, rest) ← readItems budget rest
      return (item :: items, rest)
    | .closeBracket :: rest => return ([item], rest)
    | _ => none

/-- The members of an object up to its closing brace, at least one. -/
def readMembers : (budget : Nat) → List Token → Option (List (String × Json) × List Token)
  | 0, _ => none
  | budget + 1, tokens =>
    match tokens with
    | .text key :: .colon :: rest => do
      let (value, rest) ← readValue budget rest
      match rest with
      | .comma :: rest =>
        let (members, rest) ← readMembers budget rest
        return ((key, value) :: members, rest)
      | .closeBrace :: rest => return ([(key, value)], rest)
      | _ => none
    | _ => none

end

/-- The value of a whole text. Every value has a token of its own and so has every item, so twice
the number of tokens is budget enough. -/
def parse? (text : String) : Option Json := do
  let tokens ← tokens? text
  let (value, rest) ← readValue (2 * tokens.length + 1) tokens
  if rest.isEmpty then some value else none

end Json

end Arith64

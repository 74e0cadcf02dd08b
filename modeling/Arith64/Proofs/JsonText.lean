import Arith64.Json.Value

/-!
# Texts of JSON

A JSON document in full, with numbers in any notation. It is written as a row
of tokens with spaces in front of them, between them and behind them, and with
escapes in its strings.
-/

namespace Arith64.Json

/-! ## Documents -/

/-- Some digits, one at least. -/
structure Digits where
  chars : List Char
  ne_nil : chars ≠ []
  isDigit : ∀ d ∈ chars, d.isDigit = true

/-- A power of ten behind a number. -/
structure Exponent where
  capital : Bool
  /-- The sign, if there is one, and whether it is a minus. -/
  sign : Option Bool
  power : Digits

/-- A number in any notation. Leading zeros are not JSON. -/
structure Numeral where
  negative : Bool := false
  whole : Nat
  fraction : Option Digits := none
  exponent : Option Exponent := none

/-- Any JSON. -/
inductive Document where
  | null
  | boolean (value : Bool)
  | number (n : Numeral)
  | text (value : String)
  | list (items : List Document)
  | object (members : List (String × Document))

/-- The number, if it is written with digits only. -/
def Numeral.natural? : Numeral → Option Nat
  | ⟨false, whole, none, none⟩ => some whole
  | _ => none

mutual

/-- The value that settings are read from. Booleans and other numbers are in none. -/
def Document.setting? : Document → Option Json
  | .null => some .null
  | .boolean _ => none
  | .number n => n.natural?.map .natural
  | .text value => some (.text value)
  | .list items => (settings? items).map .list
  | .object members => (memberSettings? members).map .object

def settings? : List Document → Option (List Json)
  | [] => some []
  | d :: ds => d.setting?.bind fun v => (settings? ds).map (v :: ·)

def memberSettings? : List (String × Document) → Option (List (String × Json))
  | [] => some []
  | (key, d) :: members => d.setting?.bind fun v => (memberSettings? members).map ((key, v) :: ·)

end

/-! ## Tokens -/

inductive Mark where
  | openBrace
  | closeBrace
  | openBracket
  | closeBracket
  | colon
  | comma

inductive Piece where
  | mark (m : Mark)
  | null
  | boolean (value : Bool)
  | number (n : Numeral)
  | text (value : String)

mutual

/-- The tokens of a document. -/
def Document.pieces : Document → List Piece
  | .null => [.null]
  | .boolean value => [.boolean value]
  | .number n => [.number n]
  | .text value => [.text value]
  | .list items => .mark .openBracket :: itemPieces items ++ [.mark .closeBracket]
  | .object members => .mark .openBrace :: memberPieces members ++ [.mark .closeBrace]

def itemPieces : List Document → List Piece
  | [] => []
  | [d] => d.pieces
  | d :: ds => d.pieces ++ .mark .comma :: itemPieces ds

def memberPieces : List (String × Document) → List Piece
  | [] => []
  | [(key, d)] => .text key :: .mark .colon :: d.pieces
  | (key, d) :: members =>
    .text key :: .mark .colon :: d.pieces ++ .mark .comma :: memberPieces members

end

/-! ## Characters -/

def Mark.char : Mark → Char
  | openBrace => '\x7b'
  | closeBrace => '\x7d'
  | openBracket => '['
  | closeBracket => ']'
  | colon => ':'
  | comma => ','

def Exponent.chars (e : Exponent) : List Char :=
  (if e.capital then 'E' else 'e') ::
    (e.sign.elim [] fun negative => [if negative then '-' else '+']) ++ e.power.chars

/-- What is written behind the whole part of a number. -/
def Numeral.tail (n : Numeral) : List Char :=
  (n.fraction.elim [] fun f => '.' :: f.chars) ++ n.exponent.elim [] Exponent.chars

def Numeral.chars (n : Numeral) : List Char :=
  (if n.negative then ['-'] else []) ++ ((decimal n.whole).toList ++ n.tail)

/-- What can stand behind a backslash for a character. -/
def shortEscapes : List (Char × Char) :=
  [('"', '"'), ('\\', '\\'), ('/', '/'), ('\x08', 'b'), ('\x0c', 'f'), ('\n', 'n'), ('\r', 'r'),
    ('\t', 't')]

/-- A digit in base sixteen, with a letter of either case. -/
def IsHexDigit (n : Nat) (c : Char) : Prop :=
  n < 16 ∧ (c = Nat.digitChar n ∨ c = (Nat.digitChar n).toUpper)

/-- Four digits in base sixteen. -/
inductive IsCodeUnit (n : Nat) : List Char → Prop where
  | digits {a b c d : Char} (ha : IsHexDigit (n / 4096) a) (hb : IsHexDigit (n / 256 % 16) b)
      (hc : IsHexDigit (n / 16 % 16) c) (hd : IsHexDigit (n % 16) d) : IsCodeUnit n [a, b, c, d]

/-- Some characters, and how they can be written between quotes. -/
inductive Quoted : List Char → List Char → Prop where
  | nil : Quoted [] []
  | plain {c : Char} {cs body : List Char} (hspace : ' ' ≤ c) (hquote : c ≠ '"') (hslash : c ≠ '\\')
      (h : Quoted cs body) : Quoted (c :: cs) (c :: body)
  | short {c e : Char} {cs body : List Char} (hc : (c, e) ∈ shortEscapes) (h : Quoted cs body) :
      Quoted (c :: cs) ('\\' :: e :: body)
  | unit {c : Char} {cs unit body : List Char} (hunit : IsCodeUnit c.toNat unit)
      (h : Quoted cs body) : Quoted (c :: cs) ('\\' :: 'u' :: unit ++ body)
  | pair {c : Char} {cs high low body : List Char} (hc : 0x10000 ≤ c.toNat)
      (hhigh : IsCodeUnit (0xD800 + (c.toNat - 0x10000) / 0x400) high)
      (hlow : IsCodeUnit (0xDC00 + (c.toNat - 0x10000) % 0x400) low) (h : Quoted cs body) :
      Quoted (c :: cs) ('\\' :: 'u' :: high ++ '\\' :: 'u' :: low ++ body)

/-- How a token can be written. -/
inductive Piece.Spells : Piece → List Char → Prop where
  | mark (m : Mark) : Spells (.mark m) [m.char]
  | null : Spells .null "null".toList
  | boolean (value : Bool) : Spells (.boolean value) (if value then "true" else "false").toList
  | number (n : Numeral) : Spells (.number n) n.chars
  | text {value : String} {body : List Char} (h : Quoted value.toList body) :
      Spells (.text value) ('"' :: body ++ ['"'])

/-- Some of the four characters that JSON takes for space. -/
def IsBlank (cs : List Char) : Prop := ∀ c ∈ cs, c ∈ [' ', '\t', '\n', '\r']

instance (cs : List Char) : Decidable (IsBlank cs) :=
  List.decidableBAll (· ∈ [' ', '\t', '\n', '\r']) cs

/-- Tokens one after another, with any space in front of them, between them and behind them. -/
inductive Written : List Piece → List Char → Prop where
  | nil {blank : List Char} (hblank : IsBlank blank) : Written [] blank
  | cons {p : Piece} {ps : List Piece} {blank spelling text : List Char} (hblank : IsBlank blank)
      (hp : p.Spells spelling) (h : Written ps text) :
      Written (p :: ps) (blank ++ spelling ++ text)

/-- A text of a document. -/
def Document.Writes (d : Document) (text : String) : Prop := Written d.pieces text.toList

/-! ## Texts without space -/

def Piece.compact : Piece → List Char
  | mark m => [m.char]
  | null => "null".toList
  | boolean value => (if value then "true" else "false").toList
  | number n => n.chars
  | text value => '"' :: value.toList ++ ['"']

/-- Whether a string can be written without escapes. -/
def Piece.IsPlain : Piece → Prop
  | text value => ∀ c ∈ value.toList, ' ' ≤ c ∧ c ≠ '"' ∧ c ≠ '\\'
  | _ => True

theorem quoted_self {cs : List Char} (h : ∀ c ∈ cs, ' ' ≤ c ∧ c ≠ '"' ∧ c ≠ '\\') :
    Quoted cs cs := by
  induction cs with
  | nil => exact .nil
  | cons c cs ih =>
    obtain ⟨⟨hspace, hquote, hslash⟩, hcs⟩ := List.forall_mem_cons.mp h
    exact .plain hspace hquote hslash (ih hcs)

theorem Piece.spells_compact {p : Piece} (h : p.IsPlain) : p.Spells p.compact := by
  cases p with
  | mark m => exact .mark m
  | null => exact .null
  | boolean value => exact .boolean value
  | number n => exact .number n
  | text value => exact .text (quoted_self h)

theorem written_compact {ps : List Piece} (h : ∀ p ∈ ps, p.IsPlain) :
    Written ps (ps.flatMap Piece.compact) := by
  induction ps with
  | nil => exact .nil (List.forall_mem_nil _)
  | cons p ps ih =>
    obtain ⟨hp, hps⟩ := List.forall_mem_cons.mp h
    exact .cons (List.forall_mem_nil _) (Piece.spells_compact hp) (ih hps)

theorem Document.writes_compact {d : Document} {text : String} (hplain : ∀ p ∈ d.pieces, p.IsPlain)
    (htext : text.toList = d.pieces.flatMap Piece.compact) : d.Writes text := by
  rw [Writes, htext]
  exact written_compact hplain

end Arith64.Json

/-!
# Decimal numbers

Numbers are written in base ten without leading zeros, a minus sign in front of
the negative ones. A run of digits has a value whatever zeros it starts with.
-/

namespace Arith64

/-- The digits of a natural number. -/
def decimal (n : Nat) : String := String.ofList (Nat.toDigits 10 n)

/-- The digits of an integer after its sign, if it is negative. -/
def decimalInt (n : Int) : String :=
  if n < 0 then "-" ++ decimal n.natAbs else decimal n.natAbs

def decimalWord (w : Int64) : String := decimalInt w.toInt

/-- The number that a run of digits stands for. -/
def digitsValue (digits : List Char) : Nat := Nat.ofDigitChars 10 digits 0

/-- The number that a text of digits only stands for. -/
def natural? (text : String) : Option Nat :=
  let digits := text.toList
  if digits ≠ [] ∧ digits.all Char.isDigit then some (digitsValue digits) else none

/-- Whether a text has a minus sign in front, and the text behind a sign of either kind. -/
def splitSign (text : String) : Bool × String :=
  match text.toList with
  | '-' :: digits => (true, String.ofList digits)
  | '+' :: digits => (false, String.ofList digits)
  | _ => (false, text)

/-- The integer that digits after an optional sign stand for. -/
def integer? (text : String) : Option Int := do
  let (negative, digits) := splitSign text
  let n ← natural? digits
  return if negative then -(n : Int) else n

theorem digitsValue_decimal (n : Nat) : digitsValue (decimal n).toList = n := by
  simp [digitsValue, decimal, Nat.ofDigitChars_toDigits]

end Arith64

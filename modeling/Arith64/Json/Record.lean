import Arith64.Json.Value

/-!
# Records in JSON

A record is an object that gives some of its fields in any order, each at most
once, or a list that gives the first of them in the order of declaration. What
is not given stays as it is in the record one starts from.
-/

namespace Arith64.Json

/-! ## Values of fields -/

/-- A number of 32 bits. -/
def word32? : Json → Option UInt32
  | natural n => if n < UInt32.size then some (UInt32.ofNat n) else none
  | _ => none

/-- A number of 64 bits. -/
def word64? : Json → Option UInt64
  | natural n => if n < UInt64.size then some (UInt64.ofNat n) else none
  | _ => none

/-- One of some choices: its name, or an object with its name as the only key and no value. -/
def choice? {α : Type} (choices : List α) (name : α → String) : Json → Option α
  | text s => choices.find? fun a => name a == s
  | object [(s, null)] => choices.find? fun a => name a == s
  | _ => none

/-- A value that may be left open. -/
def nullable? {α : Type} (read : Json → Option α) : Json → Option (Option α)
  | null => some none
  | value => (read value).map some

/-! ## Fields -/

/-- A field of a record: its key, and how a value is put into the record. -/
structure Field (ρ : Type) where
  key : String
  put : ρ → Json → Option ρ

/-- Puts values into the fields they belong to, in the order of both. -/
def putInOrder {ρ : Type} : List (Field ρ) → List Json → ρ → Option ρ
  | _, [], record => some record
  | [], _ :: _, _ => none
  | field :: fields, value :: values, record =>
    (field.put record value).bind (putInOrder fields values)

/-- Puts the value of a member into the field with its key. -/
def putMember {ρ : Type} (fields : List (Field ρ)) (record : ρ) (member : String × Json) :
    Option ρ :=
  (fields.find? fun field => field.key == member.1).bind fun field => field.put record member.2

/-- The record that a value makes of another one. -/
def record? {ρ : Type} (fields : List (Field ρ)) (record : ρ) : Json → Option ρ
  | list items => putInOrder fields items record
  | object members =>
    if (members.map Prod.fst).Nodup then members.foldlM (putMember fields) record else none
  | _ => none

end Arith64.Json

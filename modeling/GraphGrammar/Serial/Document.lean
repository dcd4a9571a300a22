/-!
# Documents

The stored form of a value is a document: a tree of texts, numbers, truth
values, lists and records, as data formats have them. A type that can be
stored says how its values are written and which documents it reads.

Reading is strict. A document of another sort is refused, `null` is read as an
absent value and as nothing else, counts are whole numbers that fit into 64
bits, and whole numbers stand for floating-point ones but not the other way
round. Fields that a record has beyond those asked for are ignored.

A record may also be written as the list of its fields in order. A list that
is too long is refused, and one that is too short unless the fields that are
missing may be left out.
-/

namespace GraphGrammar

/-- A tree of values. -/
inductive Document where
  | null
  | bool (value : Bool)
  | int (value : Int)
  | float (value : Float)
  | text (value : String)
  | list (items : List Document)
  | record (fields : List (String × Document))
deriving Inhabited

/-- A type whose values have a stored form. -/
class Stored (α : Type) where
  write : α → Document
  read? : Document → Option α

/-- The stored form of a value. -/
def Document.of {α : Type} [Stored α] (a : α) : Document := Stored.write a

namespace Document

/-- A whole number from zero up to a bound. -/
def countBelow? (bound : Nat) : Document → Option Nat
  | int (.ofNat n) => if n < bound then some n else none
  | _ => none

/-- The items of a list, each read the same way. -/
def items? {α : Type} (read? : Document → Option α) : Document → Option (List α)
  | list items => items.mapM read?
  | _ => none

/-- The word that stands for a value of an enumeration. A record with the word
as its only field and nothing in it is read like the word. -/
def word? : Document → Option String
  | text word => some word
  | record [(word, null)] => some word
  | _ => none

end Document

instance : Stored String where
  write := .text
  read?
    | .text value => some value
    | _ => none

instance : Stored Bool where
  write := .bool
  read?
    | .bool value => some value
    | _ => none

/-- Counts fit into 64 bits. -/
instance : Stored Nat where
  write n := .int n
  read? := Document.countBelow? UInt64.size

instance : Stored Float where
  write := .float
  read?
    | .float value => some value
    | .int value => some (Float.ofInt value)
    | _ => none

instance {α : Type} [Stored α] : Stored (List α) where
  write items := .list (items.map Stored.write)
  read? := Document.items? Stored.read?

instance {α : Type} [Stored α] : Stored (Option α) where
  write
    | none => .null
    | some a => Stored.write a
  read?
    | .null => some none
    | d => (Stored.read? d).map some

/-! ## Records

How a record is read depends on how it was written, by names or in order. Both come to fields
with names, so what follows need not know which it was. -/

/-- The fields of a record by name. -/
abbrev Fields : Type := List (String × Document)

namespace Document

/-- The fields of a record, all of which have to be there if it is written as
a list. -/
def fields? (names : List String) : Document → Option Fields
  | record fields => some fields
  | list items => if items.length = names.length then some (names.zip items) else none
  | _ => none

/-- The fields of a record whose last fields may be missing if it is written
as a list. -/
def someFields? (names : List String) : Document → Option Fields
  | record fields => some fields
  | list items => if items.length ≤ names.length then some (names.zip items) else none
  | _ => none

end Document

namespace Fields

variable {α : Type} [Stored α]

/-- A field that has to be there. -/
def required (fields : Fields) (name : String) : Option α :=
  (fields.lookup name).bind Stored.read?

/-- A field that has a value of its own if it is not there. -/
def getD (fields : Fields) (name : String) (value : α) : Option α :=
  match fields.lookup name with
  | none => some value
  | some d => Stored.read? d

/-- A field that is absent if it is not there. -/
def optional (fields : Fields) (name : String) : Option (Option α) :=
  fields.getD name none

end Fields

end GraphGrammar

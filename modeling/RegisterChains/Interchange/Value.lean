/-
This file defines the values that programs and options are exchanged as, and how to pick
such a value apart. A record is written as an object, and is read from an object or from the
list of its fields in order. An object may hold fields nobody asked for.
-/

namespace RegisterChains

namespace Interchange

inductive Value where
  | null
  | truth (value : Bool)
  | integer (value : Int)
  /-- A number written with a fraction or an exponent. No record has room for one. -/
  | fraction
  | text (value : String)
  | list (items : List Value)
  | object (entries : List (String × Value))
deriving Inhabited

/-- A field of a record. One that may be absent counts as null when it is. -/
structure Field where
  name : String
  optional : Bool
deriving DecidableEq, Repr

namespace Field

def required (name : String) : Field := ⟨name, false⟩

def absentable (name : String) : Field := ⟨name, true⟩

end Field

namespace Value

def lookup (entries : List (String × Value)) (name : String) : Option Value :=
  (entries.find? fun entry => entry.1 == name).map (·.2)

def fieldOf (entries : List (String × Value)) (field : Field) : Option Value :=
  match lookup entries field.name with
  | some value => some value
  | none => if field.optional then some null else none

/-- The fields of a record in order. A list has to have exactly those. -/
def fields (expected : List Field) : Value → Option (List Value)
  | object entries => expected.mapM (fieldOf entries)
  | list items => if items.length = expected.length then some items else none
  | null | truth _ | integer _ | fraction | text _ => none

def record (expected : List Field) (values : List Value) : Value :=
  object ((expected.map (·.name)).zip values)

/-- The name of an alternative that carries nothing: a text, or an object with that one name
and no value. -/
def alternative : Value → Option String
  | text name => some name
  | object [(name, null)] => some name
  | object _ | null | truth _ | integer _ | fraction | list _ => none

end Value

end Interchange

end RegisterChains

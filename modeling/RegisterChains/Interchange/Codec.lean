/-
This file defines codecs. A codec writes the values of one type for exchange and reads them
back. What it reads is what it writes, in every form the exchange allows for it.
-/

import RegisterChains.Interchange.Value

namespace RegisterChains

namespace Interchange

/-- How the values of a type are written and read. -/
structure Codec (α : Type) where
  encode : α → Value
  decode : Value → Option α

namespace Codec

variable {α : Type}

/-- Reads a value and writes it again, if it can be read. -/
def roundTrip (codec : Codec α) (value : Value) : Option Value :=
  (codec.decode value).map codec.encode

def truth : Codec Bool where
  encode := .truth
  decode
    | .truth value => some value
    | _ => none

def naturalBelow (bound : Nat) : Value → Option Nat
  | .integer (.ofNat value) => if value < bound then some value else none
  | _ => none

def word8 : Codec UInt8 where
  encode word := .integer word.toNat
  decode value := (naturalBelow UInt8.size value).map Nat.toUInt8

def word32 : Codec UInt32 where
  encode word := .integer word.toNat
  decode value := (naturalBelow UInt32.size value).map Nat.toUInt32

def option (codec : Codec α) : Codec (Option α) where
  encode
    | some value => codec.encode value
    | none => .null
  decode
    | .null => some none
    | value => (codec.decode value).map some

def list (codec : Codec α) : Codec (List α) where
  encode values := .list (values.map codec.encode)
  decode
    | .list items => items.mapM codec.decode
    | _ => none

def alternatives (name : α → String) (all : List α) : Codec α where
  encode value := .text (name value)
  decode value := do
    let chosen ← value.alternative
    all.find? fun candidate => name candidate == chosen

end Codec

end Interchange

end RegisterChains

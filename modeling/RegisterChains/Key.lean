/-
This file defines the keys that name instructions, blocks, descriptors, chain nodes and
copies. A key is an index into the table that handed it out. Keys of different kinds are
different types, so an index into one table cannot be used in another.
-/

namespace RegisterChains

/-- What a key names: the word it is printed with, and how many indices it can tell apart. -/
structure KeyKind where
  name : String
  capacity : Nat
deriving DecidableEq, Repr

/-- An index into the table of one kind of thing. -/
structure Key (kind : KeyKind) where
  index : Nat
deriving DecidableEq, Repr

namespace KeyKind

abbrev instruction : KeyKind := ⟨"Inst", UInt32.size⟩

abbrev block : KeyKind := ⟨"Block", UInt32.size⟩

abbrev binding : KeyKind := ⟨"Binding", UInt32.size⟩

abbrev node : KeyKind := ⟨"GroupNodeId", UInt32.size⟩

abbrev copy : KeyKind := ⟨"CopyRecordId", UInt32.size⟩

end KeyKind

abbrev InstructionId := Key .instruction

abbrev BlockId := Key .block

abbrev BindingId := Key .binding

abbrev NodeId := Key .node

abbrev CopyId := Key .copy

namespace Key

variable {kind : KeyKind}

def text (key : Key kind) : String :=
  kind.name ++ "(" ++ toString key.index ++ ")"

/-- A key that may be missing, as it is printed. -/
def optionText : Option (Key kind) → String
  | some key => "Some(" ++ key.text ++ ")"
  | none => "None"

/-- The key with this index, unless the kind cannot tell so many apart. -/
def ofIndex? (kind : KeyKind) (index : Nat) : Option (Key kind) :=
  if index < kind.capacity then some ⟨index⟩ else none

end Key

end RegisterChains

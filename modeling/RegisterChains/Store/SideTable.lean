/-
This file defines tables that attach something to keys which another table handed out.
Any key can be given an entry, and the table has room up to the largest key it has seen.
-/

import RegisterChains.Store.Arena

namespace RegisterChains

/-- A table that has an entry for some of the keys of another table. -/
structure SideTable (kind : KeyKind) (α : Type) where
  slots : Array (Option α)
deriving DecidableEq, Repr

namespace SideTable

variable {kind : KeyKind} {α : Type}

def empty : SideTable kind α := ⟨#[]⟩

instance : Inhabited (SideTable kind α) := ⟨empty⟩

/-- The table without entries, with room for the keys of another table. -/
def withRoom (room : Nat) : SideTable kind α := ⟨Array.replicate room none⟩

def get? (table : SideTable kind α) (key : Key kind) : Option α :=
  (table.slots[key.index]?).join

def contains (table : SideTable kind α) (key : Key kind) : Bool := (table.get? key).isSome

def get (table : SideTable kind α) (key : Key kind) : Except Breach α :=
  match table.get? key with
  | some entry => .ok entry
  | none => .error (.unmapped key.text)

/-- The slots, extended so that a key has one. -/
def grown (table : SideTable kind α) (key : Key kind) : Array (Option α) :=
  table.slots ++ Array.replicate (key.index + 1 - table.slots.size) none

/-- Gives a key an entry, in place of the one it had. -/
def insert (table : SideTable kind α) (key : Key kind) (entry : α) : SideTable kind α :=
  ⟨(table.grown key).setIfInBounds key.index (some entry)⟩

def erase (table : SideTable kind α) (key : Key kind) : SideTable kind α :=
  ⟨table.slots.setIfInBounds key.index none⟩

/-- Applies a function to the entry of a key. A key without an entry changes nothing. -/
def modify (table : SideTable kind α) (key : Key kind) (f : α → α) : SideTable kind α :=
  ⟨table.slots.modify key.index (Option.map f)⟩

/-- Applies a function to the entry of a key that has to have one. -/
def update (table : SideTable kind α) (key : Key kind) (f : α → α) :
    Except Breach (SideTable kind α) := do
  let _ ← table.get key
  return table.modify key f

def toList (table : SideTable kind α) : List (Key kind × α) :=
  table.slots.toList.zipIdx.filterMap fun (slot, index) =>
    slot.map fun entry => (⟨index⟩, entry)

def size (table : SideTable kind α) : Nat := table.toList.length

def text (table : SideTable kind α) (render : α → String) : String :=
  Arena.listing "SecondaryMap" render table.toList

end SideTable

end RegisterChains

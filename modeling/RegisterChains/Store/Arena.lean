/-
This file defines tables that only grow. Each entry is named by the key it was inserted
under, which is its place in the order of insertion.
-/

import RegisterChains.Failure

namespace RegisterChains

structure Arena (kind : KeyKind) (α : Type) where
  entries : Array α
deriving DecidableEq, Repr

namespace Arena

variable {kind : KeyKind} {α : Type}

def empty : Arena kind α := ⟨#[]⟩

instance : Inhabited (Arena kind α) := ⟨empty⟩

def size (arena : Arena kind α) : Nat := arena.entries.size

def get? (arena : Arena kind α) (key : Key kind) : Option α := arena.entries[key.index]?

def contains (arena : Arena kind α) (key : Key kind) : Bool :=
  decide (key.index < arena.size)

def get (arena : Arena kind α) (key : Key kind) : Except Breach α :=
  match arena.get? key with
  | some entry => .ok entry
  | none => .error .outOfRange

/-- Replaces the entry of a key. A key without an entry changes nothing. -/
def set (arena : Arena kind α) (key : Key kind) (entry : α) : Arena kind α :=
  ⟨arena.entries.setIfInBounds key.index entry⟩

def modify (arena : Arena kind α) (key : Key kind) (f : α → α) : Arena kind α :=
  ⟨arena.entries.modify key.index f⟩

/-- The key the next entry will get. -/
def nextKey (arena : Arena kind α) : Except Breach (Key kind) := Key.ofIndex kind arena.size

def insert (arena : Arena kind α) (entry : α) : Except Breach (Key kind × Arena kind α) := do
  let key ← arena.nextKey
  return (key, ⟨arena.entries.push entry⟩)

def keys (arena : Arena kind α) : List (Key kind) :=
  (List.range arena.size).map Key.mk

def values (arena : Arena kind α) : List α := arena.entries.toList

def toList (arena : Arena kind α) : List (Key kind × α) :=
  arena.values.zipIdx.map fun (entry, index) => (⟨index⟩, entry)

def map (arena : Arena kind α) (f : α → α) : Arena kind α := ⟨arena.entries.map f⟩

/-- Entries as they are printed, under the name of their table. -/
def listing (table : String) (render : α → String) (entries : List (Key kind × α)) : String :=
  table ++ " \x7b" ++
    ", ".intercalate (entries.map fun (key, entry) => key.text ++ ": " ++ render entry) ++ "\x7d"

def text (arena : Arena kind α) (render : α → String) : String :=
  listing "ArenaMap" render arena.toList

end Arena

end RegisterChains

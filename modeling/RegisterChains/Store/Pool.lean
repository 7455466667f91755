/-
This file defines tables whose entries can be removed. The key of a removed entry is
handed out again, last removed first, before the table grows. So a key names at most one
entry at a time, and must not be kept past the removal of its entry.
-/

import RegisterChains.Store.Arena

namespace RegisterChains

/-- A table with a slot per key, and the keys of the empty slots in the order in which they
are handed out again. -/
structure Pool (kind : KeyKind) (α : Type) where
  slots : Array (Option α)
  free : List (Key kind)
  size : Nat
deriving DecidableEq, Repr

namespace Pool

variable {kind : KeyKind} {α : Type}

def empty : Pool kind α := ⟨#[], [], 0⟩

instance : Inhabited (Pool kind α) := ⟨empty⟩

def get? (pool : Pool kind α) (key : Key kind) : Option α :=
  (pool.slots[key.index]?).join

def contains (pool : Pool kind α) (key : Key kind) : Bool := (pool.get? key).isSome

def get (pool : Pool kind α) (key : Key kind) : Except Breach α :=
  match pool.get? key with
  | some entry => .ok entry
  | none => .error (.emptySlot key.text)

/-- The key the next entry will get. -/
def nextKey (pool : Pool kind α) : Key kind :=
  match pool.free with
  | key :: _ => key
  | [] => ⟨pool.slots.size⟩

def insert (pool : Pool kind α) (entry : α) : Key kind × Pool kind α :=
  match pool.free with
  | key :: rest =>
    (key, ⟨pool.slots.setIfInBounds key.index (some entry), rest, pool.size + 1⟩)
  | [] => (⟨pool.slots.size⟩, ⟨pool.slots.push (some entry), [], pool.size + 1⟩)

/-- Adds an entry, provided that the kind still has a key for it. -/
def insertChecked (pool : Pool kind α) (entry : α) : Except Breach (Key kind × Pool kind α) := do
  let _ ← Key.ofIndex kind pool.nextKey.index
  return pool.insert entry

def remove (pool : Pool kind α) (key : Key kind) : Option α × Pool kind α :=
  match pool.get? key with
  | some entry =>
    (some entry, ⟨pool.slots.setIfInBounds key.index none, key :: pool.free, pool.size - 1⟩)
  | none => (none, pool)

/-- Applies a function to the entry of a key. A key without an entry changes nothing. -/
def modify (pool : Pool kind α) (key : Key kind) (f : α → α) : Pool kind α :=
  { pool with slots := pool.slots.modify key.index (Option.map f) }

/-- Removes every entry and forgets every key. -/
def clear (_ : Pool kind α) : Pool kind α := empty

/-- Every key with its entry, in the order of keys. -/
def toList (pool : Pool kind α) : List (Key kind × α) :=
  pool.slots.toList.zipIdx.filterMap fun (slot, index) =>
    slot.map fun entry => (⟨index⟩, entry)

def keys (pool : Pool kind α) : List (Key kind) := pool.toList.map (·.1)

def text (pool : Pool kind α) (render : α → String) : String :=
  Arena.listing "PoolMap" render pool.toList

end Pool

end RegisterChains

/-
This file defines finite maps as lists of pairs. A key is listed at most once, and the
order of the list carries no meaning.
-/

namespace RegisterChains

structure Assoc (κ α : Type) where
  pairs : List (κ × α)
deriving DecidableEq, Repr

namespace Assoc

variable {κ α : Type} [DecidableEq κ]

def empty : Assoc κ α := ⟨[]⟩

instance : Inhabited (Assoc κ α) := ⟨empty⟩

def get? (map : Assoc κ α) (key : κ) : Option α :=
  (map.pairs.find? fun pair => decide (pair.1 = key)).map (·.2)

def erase (map : Assoc κ α) (key : κ) : Assoc κ α :=
  ⟨map.pairs.filter fun pair => decide (pair.1 ≠ key)⟩

/-- Gives a key a value, in place of the one it had. -/
def insert (map : Assoc κ α) (key : κ) (value : α) : Assoc κ α :=
  ⟨(key, value) :: (map.erase key).pairs⟩

def filter (map : Assoc κ α) (keep : κ → α → Bool) : Assoc κ α :=
  ⟨map.pairs.filter fun pair => keep pair.1 pair.2⟩

def isEmpty (map : Assoc κ α) : Bool := map.pairs.isEmpty

end Assoc

end RegisterChains

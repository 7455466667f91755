/-
This file defines the counts of what was done to a program.
-/

import RegisterChains.Failure

namespace RegisterChains

structure Stats where
  checked : Nat
  repaired : Nat
  reordered : Nat
  substituted : Nat
  relaxed : Nat
  /-- Operands read from a copy that was already there. -/
  reused : Nat
  /-- Operands copied over a copy that was not read any more. -/
  recycled : Nat
  copies : Nat
  hoisted : Nat
  /-- Copies inserted to keep descriptors apart. -/
  seedCopies : Nat
deriving DecidableEq, Repr

namespace Stats

def zero : Stats := ⟨0, 0, 0, 0, 0, 0, 0, 0, 0, 0⟩

instance : Inhabited Stats := ⟨zero⟩

/-- The counts fit 64 bits. -/
def limit : Nat := UInt64.size

def countChecked (stats : Stats) : Except Breach Stats :=
  if stats.checked + 1 < limit then .ok { stats with checked := stats.checked + 1 }
  else .error .overflow

def counts (stats : Stats) : List (String × Nat) :=
  [("checked", stats.checked), ("repaired", stats.repaired), ("reordered", stats.reordered),
    ("substituted", stats.substituted), ("relaxed", stats.relaxed), ("reused", stats.reused),
    ("recycled", stats.recycled), ("copies", stats.copies), ("hoisted", stats.hoisted),
    ("seed", stats.seedCopies)]

def text (stats : Stats) : String :=
  s!"{stats.checked} groups, {stats.repaired} repaired ({stats.reordered} reordered, " ++
    s!"{stats.substituted} substituted, {stats.relaxed} relaxed), {stats.reused} reused, " ++
    s!"{stats.recycled} recycled, {stats.copies} copies, {stats.hoisted} hoisted, " ++
    s!"{stats.seedCopies} seed copies"

end Stats

end RegisterChains

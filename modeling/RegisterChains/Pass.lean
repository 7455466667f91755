/-
This file defines what is worked on while the runs of a program are resolved: the program,
the constraints found so far, the counts of what was done, and the copies in the preamble.
-/

import RegisterChains.CopyCache
import RegisterChains.Options
import RegisterChains.Program

namespace RegisterChains

structure Setting where
  target : Target
  options : Options
  shown : Option Level

structure Pass where
  program : Program
  graph : ChainGraph
  stats : Stats
  /-- The copies in the preamble, by the value they hold. They outlive blocks. -/
  hoisted : Assoc Register Register

namespace Pass

def start (target : Target) (program : Program) : Pass :=
  ⟨program, .empty target.limits, .zero, .empty⟩

def onProgram {α : Type} (step : Step Program α) : Step Pass α :=
  step.within (·.program) fun pass program => { pass with program := program }

def onGraph {α : Type} (step : Step ChainGraph α) : Step Pass α :=
  step.within (·.graph) fun pass graph => { pass with graph := graph }

/-- A computation on the constraints and a cache for one block, which is dropped
afterwards. -/
def withCache {α : Type} (block : BlockId) (step : Step Tracking α) : Step Pass α :=
  fun pass =>
    let inner := step ⟨.empty block, pass.graph⟩
    ⟨inner.result, { pass with graph := inner.state.graph }, inner.notes⟩

def count (change : Stats → Stats) : Step Pass Unit :=
  modify fun pass => { pass with stats := change pass.stats }

end Pass

end RegisterChains

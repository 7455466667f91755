/-
This file defines the state of a walk over a block: what is worked on, the copies known in
the block, and the copies behind instructions that have been replaced since.
-/

import RegisterChains.Pass
import RegisterChains.Repair.Plan

namespace RegisterChains

/-- A copy behind an instruction that puts a value back from where the instruction wrote
it. -/
structure PendingCopy where
  value : Register
  holder : Register
  instruction : InstructionId
deriving DecidableEq, Repr

structure Walk extends Pass where
  cache : CopyCache
  /-- Copies behind replaced instructions, which count once the walk reaches them. -/
  deferred : List PendingCopy

inductive RunFix where
  /-- The run holds. Operands may have changed, and copies may stand in front of the
  instruction. -/
  | holds
  /-- The instruction writes other registers, and these copies behind it put the values
  back. -/
  | copiedOut (copies : List PendingCopy)
  | narrowed
  | replaced (resume : Option InstructionId)
deriving DecidableEq, Repr

namespace Walk

/-- A computation on what is worked on, whatever block is walked over. -/
def onPass {α : Type} (step : Step Pass α) : Step Walk α :=
  step.within (·.toPass) fun walk pass => { walk with toPass := pass }

def onProgram {α : Type} (step : Step Program α) : Step Walk α := onPass (Pass.onProgram step)

def onGraph {α : Type} (step : Step ChainGraph α) : Step Walk α := onPass (Pass.onGraph step)

def tracking (walk : Walk) : Tracking := ⟨walk.cache, walk.graph⟩

def onTracking {α : Type} (step : Step Tracking α) : Step Walk α :=
  step.within tracking fun walk tracking =>
    { walk with cache := tracking.cache, graph := tracking.graph }

def count (change : Stats → Stats) : Step Walk Unit := onPass (Pass.count change)

def instruction (key : InstructionId) : Step Walk Instruction := do
  (← get).program.instruction key

def setInstruction (key : InstructionId) (instruction : Instruction) : Step Walk Unit :=
  onProgram (modify (Program.setInstruction key instruction))

def judge (operands : List Register) (parity : Parity) : Step Walk (Except Conflict Fit) :=
  onGraph (ChainGraph.judgeOperands operands parity)

/-- Commits a run of an instruction that was judged to fit. -/
def commit (operands : List Register) (parity : Parity) : Step Walk Unit :=
  onGraph (ChainGraph.commit operands parity true)

end Walk

end RegisterChains

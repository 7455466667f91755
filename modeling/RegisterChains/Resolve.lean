/-
This file resolves the consecutive-register requirements of a program. The descriptors are
seeded, then the blocks are walked over in order, and each run of each instruction is
recorded in the chains, if need be after a repair. The program is changed in place, and the
finished chains are what a physical allocator has to obey.
-/

import RegisterChains.Chain.Numbering
import RegisterChains.Chain.WellFormed
import RegisterChains.Repair.Visit
import RegisterChains.Seeding

namespace RegisterChains

structure Resolution where
  numbering : Numbering
  stats : Stats
deriving DecidableEq, Repr

namespace Pass

def checkGraph : Step Pass Unit := do
  if let .error cause := (← get).graph.check then
    Step.contradict cause

def resolve (setting : Setting) : Step Pass Resolution := do
  Seeding.seedAll
  resolveBlocks setting (← get).program.blocks
  checkGraph
  let pass ← get
  Step.report (.resolved pass.program.name pass.stats)
  return ⟨.ofGraph pass.graph setting.options.verifyAssignments, pass.stats⟩

end Pass

namespace Program

def resolve (setting : Setting) : Step Program Resolution := fun program =>
  let pass := (Pass.resolve setting).run (.start setting.target program)
  ⟨pass.result, pass.state.program, pass.notes⟩

end Program

namespace Numbering

/-- Judges every run of a program that a target needs to be consecutive against the finished
chains. The runs are judged one after the other, so the notes of the earlier ones are kept
when a run does not lie inside its operands. -/
def judgeRuns (target : Target) (program : Program) :
    Step Numbering (List (Except Conflict Fit)) := do
  (← program.demandedRuns target).mapM fun (instruction, run) => do
    let operands ← run.operands instruction
    (ChainGraph.judgeOperands operands run.parity).within graph fun numbering _ => numbering

end Numbering

end RegisterChains

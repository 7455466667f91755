/-
This file defines targets that answer some questions on their own and pass the others on to
another target.
-/

import RegisterChains.Target

namespace RegisterChains

structure Overrides where
  runs : List (Opcode × List OperandRun)
  /-- The cheaper encoding, or that there is none, of every instruction with one of these
  opcodes. -/
  relaxations : List (Opcode × Option Relaxation)
  deschedules : Option (List Opcode)
  noConstantReads : Bool
  noReordering : Bool
deriving DecidableEq, Repr

namespace Overrides

def answerFor {α : Type} (answers : List (Opcode × α)) (instruction : Instruction) : Option α :=
  (answers.find? fun (opcode, _) => opcode == instruction.opcode).map (·.2)

/-- The target that answers as another one does, except where an answer is replaced. -/
def apply (overrides : Overrides) (target : Target) : Target :=
  { target with
    runs := fun instruction =>
      (answerFor overrides.runs instruction).getD (target.runs instruction)
    relax := fun instruction run =>
      match answerFor overrides.relaxations instruction with
      | some answer => .ok answer
      | none => target.relax instruction run
    deschedules := fun instruction =>
      match overrides.deschedules with
      | some opcodes => opcodes.contains instruction.opcode
      | none => target.deschedules instruction
    acceptsBank := fun instruction side slot bank mode =>
      !(overrides.noConstantReads && bank == .constant) &&
        target.acceptsBank instruction side slot bank mode
    reorder := fun instruction run order =>
      if overrides.noReordering then .ok none else target.reorder instruction run order }

end Overrides

end RegisterChains

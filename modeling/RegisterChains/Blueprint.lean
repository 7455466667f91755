/-
This file builds programs from a description of their parts. Each instruction is made when
it is added, so the first part that breaks a rule is the one that is reported.
-/

import RegisterChains.Draft
import RegisterChains.Program

namespace RegisterChains

structure Blueprint where
  name : String := "main"
  /-- Whether the preamble gets its key before the blocks of the body. -/
  preambleFirst : Bool := false
  blocks : List (String × List Draft)
  preamble : Option (List Draft) := none
  exports : List Register := []
  descriptors : List Descriptor := []
  uniforms : List Register := []
  /-- Fresh registers have numbers below this one. -/
  tempLimit : Option UInt32 := none
  instructionLimit : Option Nat := none
deriving DecidableEq, Repr

namespace Blueprint

def appendAll (block : BlockId) : List Draft → Step Program Unit
  | [] => return ()
  | draft :: rest => do
    let _ ← Program.append block (← draft.make)
    appendAll block rest

def addBlocks : List (String × List Draft) → Step Program Unit
  | [] => return ()
  | (name, drafts) :: rest => do
    appendAll (← Program.addBlock name) drafts
    addBlocks rest

def declareAll : List Descriptor → Step Program Unit
  | [] => return ()
  | descriptor :: rest => do
    let _ ← Program.declare descriptor
    declareAll rest

/-- Sets what is known about registers and how large the program can grow. -/
def finish (blueprint : Blueprint) (program : Program) : Program :=
  let program := blueprint.uniforms.foldl (fun program register =>
    program.markUniform register) program
  { program with
    tempLimit := blueprint.tempLimit.getD program.tempLimit
    instructionLimit := blueprint.instructionLimit.getD program.instructionLimit }

/-- Puts the parts into a program, in the order in which they are described. -/
def assemble (blueprint : Blueprint) : Step Program Unit := do
  if blueprint.preambleFirst then
    let _ ← Program.addPreamble
  addBlocks blueprint.blocks
  if let some drafts := blueprint.preamble then
    appendAll (← Program.addPreamble) drafts
  modify fun program => blueprint.exports.foldl (fun program register =>
    program.exportRegister register) program
  declareAll blueprint.descriptors
  modify blueprint.finish

/-- Builds the program with these parts. The state at hand is left alone. -/
def build {σ : Type} (blueprint : Blueprint) : Step σ Program :=
  Step.within (fun _ => .empty blueprint.name) (fun state _ => state) do
    blueprint.assemble
    get

end Blueprint

end RegisterChains

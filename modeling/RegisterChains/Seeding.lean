/-
This file puts the descriptors of a program into the constraints, before any instruction is
looked at. Inputs come first, then arrays, then outputs, each in the order of declaration.
A register that an earlier descriptor already pins is replaced in the later one: an output
takes over a copy that nobody else needs, or a fresh register that is written at the end of
the program; an array gets a fresh register that is written at its start and stands for the
old one from there on; and the hardware writes both registers of an input.
-/

import RegisterChains.Pass

namespace RegisterChains

namespace Seeding

/-! ### Copies that can become outputs -/

/-- Follows the copies that an instruction makes and destroys. -/
def follow (id : InstructionId) (instruction : Instruction) (place : UInt32) :
    Step Tracking Unit := do
  modify fun tracking =>
    instruction.sources.foldl (fun tracking register => tracking.noteUse register place) tracking
  modify fun tracking => instruction.dests.foldl Tracking.noteDef tracking
  if let some (dest, source) := instruction.asCopy then
    let _ ← Tracking.recordCopy source dest (some id) place false

def followAll (program : Program) : List (InstructionId × Nat) → Step Tracking Unit
  | [] => return ()
  | (id, place) :: rest => do
    follow id (← program.instruction id) place.toUInt32
    followAll program rest

/-- Whether a register is written once in the body and needed by nothing else: no
instruction reads it, no descriptor pins it, and the preamble does not export it. -/
def isPrivate (graph : ChainGraph) (program : Program) (register : Register) :
    Except Breach Bool := do
  let pinned := ((graph.find register).bind graph.pinOf).isSome
  let bound := program.descriptors.values.any (·.registers.contains register)
  if pinned || bound || program.exports.contains register then
    return false
  let instructions := (← program.blocks.mapM program.instructionsOf).flatten
  let isRead := instructions.any (·.sources.contains register)
  let writes := (instructions.flatMap (·.dests)).count register
  return !isRead && writes == 1

/-- A register that holds a copy of a value at the end of a block and that nothing else
needs. -/
def spareCopy (program : Program) (block : BlockId) (value : Register) :
    Step Tracking (Option Register) := do
  followAll program (← program.layout.instructionsOf block).zipIdx
  let tracking ← get
  let holders ← tracking.cache.holders value
  let found ← (holders.map (·.dest)).findM? (isPrivate tracking.graph program ·)
  Tracking.finish
  return found

/-! ### Contested registers -/

def separateOutput (exit : BlockId) (register fresh : Register) : Step Pass Unit := do
  let _ ← Pass.onProgram (Program.push exit (.move fresh register))
  Pass.count fun stats => { stats with seedCopies := stats.seedCopies + 1 }

/-- Gives an array its own register, which is written at the start of the program and stands
for the contested one from there on. -/
def separateArray (register fresh : Register) : Step Pass Unit := do
  let some entry := (← get).program.layout.entry | Step.contradict .arrayWithoutBlocks
  let copy ← Pass.onProgram (Program.prepend entry (.move fresh register))
  Pass.onProgram (Program.renameAfter copy register fresh)
  Pass.count fun stats => { stats with seedCopies := stats.seedCopies + 1 }

/-- A register for the member of a descriptor whose own is pinned by another one. -/
def separate (descriptor : Descriptor) (register : Register) (owner : Pin) :
    Step Pass Register := do
  let ownerKind := (← (← get).program.descriptor owner.binding).kind
  if descriptor.kind = .array && ownerKind = .array then
    Step.contradict (.sharedByArrays register)
  if descriptor.kind = .output then
    let program := (← get).program
    let some exit := program.layout.exit | Step.contradict .outputWithoutBlocks
    if let some holder ← Pass.withCache exit (spareCopy program exit register) then
      Step.report (.outputTaken register ownerKind holder)
      return holder
  let (number, _) ← Pass.onProgram (Program.allocate 1)
  let fresh := Register.temp number
  match descriptor.kind with
  | .output =>
    let some exit := (← get).program.layout.exit | Step.contradict .outputWithoutBlocks
    separateOutput exit register fresh
  | .array => separateArray register fresh
  | .input => pure ()
  Step.report (.separated register ownerKind fresh descriptor.kind)
  return fresh

/-! ### Pinning members -/

/-- Writes a pin on a node. Members of arrays are marked as such. -/
def attach (kind : DescriptorKind) (pin : Pin) (node : Node) : Node :=
  { node with
    pin := some pin
    payload := if kind = .array then .arrayMember pin.binding else node.payload }

/-- Pins a member of a descriptor, and links it behind the member before it. -/
def pinMember (descriptor : Descriptor) (register : Register) (pin : Pin) (prev : Option Register) :
    Step ChainGraph Unit := do
  let id ← ChainGraph.create register
  modify (·.update id (attach descriptor.kind pin))
  let numbered ← match pin.physical with
    | some physical => ChainGraph.demandParity id (.ofNumber physical) false
    | none => pure true
  let aligned ←
    if pin.offset = 0 then ChainGraph.demandParity id descriptor.parity true else pure true
  if !numbered || !aligned then
    Step.contradict (.seedParity register pin.binding)
  if let some first := prev then
    if !(← ChainGraph.apply (·.link first register (!descriptor.advisory) false)) then
      Step.contradict (.seedLink register first pin.binding)
  Step.report (.bound register pin.offset pin.binding)

def replaceMember (binding : BindingId) (offset : Nat) (register : Register)
    (program : Program) : Program :=
  { program with
    descriptors := program.descriptors.modify binding fun descriptor =>
      { descriptor with registers := descriptor.registers.set offset register } }

/-- Seeds one member of a descriptor. Gives the register the member ends up with. -/
def seedMember (binding : BindingId) (descriptor : Descriptor) (register : Register)
    (offset : Nat) (prev : Option Register) : Step Pass Register := do
  if !register.isVirtual then
    Step.contradict (.pinnedOperand register binding)
  let physical ← descriptor.physicalAt offset
  let wanted : Pin := ⟨binding, offset.toUInt32, descriptor.bank, physical⟩
  let graph := (← get).graph
  match (graph.find register).bind graph.pinOf with
  | some pin =>
    if pin = wanted then
      return register
    let other ← separate descriptor register pin
    Pass.onProgram (modify (replaceMember binding offset other))
    Pass.onGraph (pinMember descriptor other wanted prev)
    return other
  | none =>
    Pass.onGraph (pinMember descriptor register wanted prev)
    return register

def seedMembers (binding : BindingId) (descriptor : Descriptor) :
    List (Register × Nat) → Option Register → Step Pass Unit
  | [], _ => return ()
  | (register, offset) :: rest, prev => do
    let seeded ← seedMember binding descriptor register offset prev
    seedMembers binding descriptor rest (some seeded)

/-- Seeds a descriptor. A descriptor that has been seeded stays as it is. -/
def seed (binding : BindingId) : Step Pass Unit := do
  let descriptor ← (← get).program.descriptor binding
  seedMembers binding descriptor descriptor.registers.zipIdx none

def ofKind (program : Program) (kind : DescriptorKind) : List BindingId :=
  (program.descriptors.toList.filter fun (_, descriptor) => descriptor.kind = kind).map (·.1)

/-- The descriptors in the order in which they are seeded. -/
def order (program : Program) : List BindingId :=
  ofKind program .input ++ ofKind program .array ++ ofKind program .output

def seedEach : List BindingId → Step Pass Unit
  | [] => return ()
  | binding :: rest => do
    seed binding
    seedEach rest

def seedAll : Step Pass Unit := do
  seedEach (order (← get).program)

end Seeding

end RegisterChains

/-
This file defines programs: blocks of instructions over registers, the descriptors attached
to them, and perhaps a preamble that runs once before the body. A program hands out fresh
registers, which no instruction or descriptor that was appended or declared names.
-/

import RegisterChains.Layout
import RegisterChains.Step

namespace RegisterChains

structure Program where
  name : String
  instructions : Arena .instruction Instruction
  blockNames : Arena .block String
  layout : Layout
  preamble : Option BlockId
  /-- The registers that the preamble makes visible to the body, in order. -/
  exports : List Register
  descriptors : Arena .binding Descriptor
  uniforms : List Register
  nextTemp : UInt32
  tempLimit : UInt32
  /-- How many instructions the program can ever hold, once it is being worked on. -/
  instructionLimit : Nat
deriving DecidableEq, Repr

namespace Program

def empty (name : String) : Program where
  name := name
  instructions := .empty
  blockNames := .empty
  layout := .empty
  preamble := none
  exports := []
  descriptors := .empty
  uniforms := []
  nextTemp := 0
  tempLimit := 0xffffffff
  instructionLimit := UInt64.size - 1

/-! ### Reading a program -/

def instruction (program : Program) (key : InstructionId) : Except Breach Instruction :=
  program.instructions.get key

def instructionsOf (program : Program) (block : BlockId) : Except Breach (List Instruction) := do
  (← program.layout.instructionsOf block).mapM program.instruction

def descriptor (program : Program) (key : BindingId) : Except Breach Descriptor :=
  program.descriptors.get key

def blocks (program : Program) : List BlockId := program.layout.blockList

/-- Every run that a target needs to be consecutive, with its instruction, in the order of the
body. -/
def demandedRuns (program : Program) (target : Target) :
    Except Breach (List (Instruction × OperandRun)) := do
  let instructions := (← program.blocks.mapM program.instructionsOf).flatten
  return instructions.flatMap fun instruction =>
    (target.runs instruction).map fun run => (instruction, run)

/-- Whether a value can be computed once for all invocations. -/
def isUniform (program : Program) (register : Register) : Bool :=
  register.isConstant || program.uniforms.contains register

/-! ### Building a program -/

def changeLayout (change : Layout → Except Breach Layout) : Step Program Unit := do
  let layout ← change (← get).layout
  modify fun program => { program with layout := layout }

def nameBlock (name : String) : Step Program BlockId := do
  let (block, blockNames) ← (← get).blockNames.insert name
  modify fun program => { program with blockNames := blockNames }
  return block

def addBlock (name : String) : Step Program BlockId := do
  let block ← nameBlock name
  changeLayout (·.appendBlock block)
  return block

/-- The preamble, which is added if there is none yet. -/
def addPreamble : Step Program BlockId := do
  match (← get).preamble with
  | some block => return block
  | none =>
    let block ← nameBlock "preamble"
    changeLayout (·.setAside block)
    modify fun program => { program with preamble := some block }
    return block

def exportRegister (register : Register) (program : Program) : Program :=
  if program.exports.contains register then program
  else { program with exports := program.exports ++ [register] }

def markUniform (register : Register) (program : Program) : Program :=
  if program.uniforms.contains register then program
  else { program with uniforms := register :: program.uniforms }

/-- The next fresh number once some operands are in use. The largest number has none
after it. -/
def numberAfter (next : UInt32) (operands : List Register) : Except Breach UInt32 :=
  operands.foldlM (fun next operand =>
    if !operand.isVirtual then .ok next
    else if operand.number = 0xffffffff then .error .overflow
    else .ok (max next (operand.number + 1))) next

/-- Keeps fresh registers apart from some operands. -/
def noteOperands (operands : List Register) : Step Program Unit := do
  let next ← numberAfter (← get).nextTemp operands
  modify fun program => { program with nextTemp := next }

def store (instruction : Instruction) : Step Program InstructionId := do
  let (key, instructions) ← (← get).instructions.insert instruction
  modify fun program => { program with instructions := instructions }
  return key

/-- Adds an instruction at the end of a block while the program is being built. The limit
on instructions does not count yet. -/
def append (block : BlockId) (instruction : Instruction) : Step Program InstructionId := do
  noteOperands (instruction.dests ++ instruction.sources)
  let key ← store instruction
  changeLayout (·.append key block)
  return key

def declare (descriptor : Descriptor) : Step Program BindingId := do
  noteOperands descriptor.registers
  let (key, descriptors) ← (← get).descriptors.insert descriptor
  modify fun program => { program with descriptors := descriptors }
  return key

/-! ### Working on a program -/

/-- Puts an instruction into the table of instructions, if the limit allows it. -/
def create (instruction : Instruction) : Step Program InstructionId := do
  let program ← get
  if program.instructionLimit ≤ program.instructions.size then
    Step.refuse .outOfInstructions
  else
    store instruction

def push (block : BlockId) (instruction : Instruction) : Step Program InstructionId := do
  let key ← create instruction
  changeLayout (·.append key block)
  return key

def prepend (block : BlockId) (instruction : Instruction) : Step Program InstructionId := do
  let key ← create instruction
  changeLayout (·.prepend key block)
  return key

def insertBefore (anchor : InstructionId) (instruction : Instruction) :
    Step Program InstructionId := do
  let key ← create instruction
  changeLayout (·.insertBefore key anchor)
  return key

def insertAfter (anchor : InstructionId) (instruction : Instruction) :
    Step Program InstructionId := do
  let key ← create instruction
  changeLayout (·.insertAfter key anchor)
  return key

def remove (key : InstructionId) : Step Program Unit := changeLayout (·.remove key)

def insertAllBefore (anchor : InstructionId) :
    List Instruction → Step Program (List InstructionId)
  | [] => return []
  | instruction :: rest => do
    let key ← insertBefore anchor instruction
    return key :: (← insertAllBefore anchor rest)

def replace (key : InstructionId) (sequence : List Instruction) :
    Step Program (List InstructionId) := do
  let inserted ← insertAllBefore key sequence
  remove key
  return inserted

def setInstruction (key : InstructionId) (instruction : Instruction) (program : Program) :
    Program :=
  { program with instructions := program.instructions.set key instruction }

/-- The instructions that run after one in the order of blocks: the rest of its block, and
all later blocks. -/
def laterInstructions (program : Program) (key : InstructionId) :
    Except Breach (List InstructionId) := do
  let block ← program.layout.blockOf key
  let followers ← program.layout.followersOf key
  let later ← ((program.blocks.dropWhile (· ≠ block)).drop 1).mapM
    program.layout.instructionsOf
  return followers ++ later.flatten

def renameAfter (key : InstructionId) (register replacement : Register) :
    Step Program Unit := do
  let later ← (← get).laterInstructions key
  modify fun program =>
    { program with
      instructions := later.foldl
        (fun instructions key => instructions.modify key (·.rename register replacement))
        program.instructions }

/-- Hands out `count` fresh registers: all numbers from the first given one up to, and
without, the second. -/
def allocate (count : Nat) : Step Program (UInt32 × UInt32) := do
  let program ← get
  let stop := program.nextTemp.toNat + count
  if stop < UInt32.size ∧ stop ≤ program.tempLimit.toNat then
    set { program with nextTemp := stop.toUInt32 }
    return (program.nextTemp, stop.toUInt32)
  else
    Step.refuse (.outOfRegisters count)

/-! ### Printing -/

def blockText (program : Program) (block : BlockId) : Except Breach String := do
  let name ← program.blockNames.get block
  let lines ← (← program.instructionsOf block).mapM Instruction.text
  return name ++ ":\n" ++ String.join (lines.map fun line => "  " ++ line ++ "\n")

/-- The listing of a program: the preamble, then the blocks of the body. -/
def text (program : Program) : Except Breach String := do
  let blocks ← (program.preamble.toList ++ program.blocks).mapM program.blockText
  return "fn " ++ program.name ++ " \x7b\n" ++ String.join blocks ++ "\x7d"

end Program

end RegisterChains

/-
This file defines instructions: an opcode, the registers written, the operands read, and
what sampling and dot products need besides. All operands are read before any register is
written. Which runs of operands have to be consecutive is not part of an instruction; the
target decides that.
-/

import RegisterChains.Swizzle

namespace RegisterChains

inductive Opcode where
  | mov
  | pack
  | vmov
  | fadd
  | fmul
  /-- The dot product of the two halves of the operands, each read through a swizzle. -/
  | dp
  /-- Samples a texture at coordinates read through a swizzle. Destination `i` receives
  channel `firstChannel + i`. -/
  | smp
  | wdf
  | nop
deriving DecidableEq, Repr

namespace Opcode

def mnemonic : Opcode → String
  | mov => "mov"
  | pack => "pack"
  | vmov => "vmov"
  | fadd => "fadd"
  | fmul => "fmul"
  | dp => "dp"
  | smp => "smp"
  | wdf => "wdf"
  | nop => "nop"

def ofMnemonic? (mnemonic : String) : Option Opcode :=
  [mov, pack, vmov, fadd, fmul, dp, smp, wdf, nop].find? fun opcode =>
    opcode.mnemonic == mnemonic

end Opcode

structure Instruction where
  opcode : Opcode
  dests : List Register
  sources : List Register
  /-- The swizzles that source runs are read through. -/
  swizzles : List Swizzle
  /-- Which channels of a sample are read later on. -/
  writeMask : UInt8
  /-- The channel that the first destination of a sample receives. -/
  firstChannel : UInt8
deriving DecidableEq, Repr

namespace Instruction

/-! ### Making instructions -/

def plain (opcode : Opcode) (dests sources : List Register) : Instruction :=
  ⟨opcode, dests, sources, [], 0, 0⟩

def move (dest source : Register) : Instruction := plain .mov [dest] [source]

/-- An instruction that copies operand by operand, and so needs as many operands as
destinations. -/
def copying (opcode : Opcode) (dests sources : List Register) : Except Breach Instruction :=
  if dests.length = sources.length then .ok (plain opcode dests sources)
  else .error .unequalLengths

def packed (dests sources : List Register) : Except Breach Instruction :=
  copying .pack dests sources

def wideMove (dests sources : List Register) : Except Breach Instruction :=
  copying .vmov dests sources

def add (dest left right : Register) : Instruction := plain .fadd [dest] [left, right]

def mul (dest left right : Register) : Instruction := plain .fmul [dest] [left, right]

/-- The dot product of two vectors of equal length, whose lanes are read in order. -/
def dot (dest : Register) (left right : List Register) : Except Breach Instruction := do
  if left.length ≠ right.length then
    throw .unequalLengths
  let first ← Swizzle.identity left.length
  let second ← Swizzle.identity right.length
  return { plain .dp [dest] (left ++ right) with swizzles := [first, second] }

/-- The mask of the first `count` channels. It is computed in a 32-bit word, of which the
low eight bits are kept. -/
def channelMask (count : Nat) : Except Breach UInt8 :=
  if count < 32 then .ok ((1 <<< count) - 1 : Nat).toUInt8 else .error .overflow

/-- Samples a texture at `coordinates`, read in order, into `dests`. Every channel is read
later on. -/
def sample (dests coordinates : List Register) : Except Breach Instruction := do
  let swizzle ← Swizzle.identity coordinates.length
  let mask ← channelMask dests.length
  return { plain .smp dests coordinates with swizzles := [swizzle], writeMask := mask }

def deschedule : Instruction := plain .wdf [] []

def operandAt (operands : List Register) (index : Nat) : Except Breach Register :=
  match operands[index]? with
  | some operand => .ok operand
  | none => .error .outOfRange

/-- The instruction of an opcode with its operands given as lists. The two vectors of a dot
product are given apart from the other operands. -/
def ofOperands (opcode : Opcode) (dests sources left right : List Register) :
    Except Breach Instruction := do
  match opcode with
  | .mov => return move (← operandAt dests 0) (← operandAt sources 0)
  | .pack => packed dests sources
  | .vmov => wideMove dests sources
  | .fadd => return add (← operandAt dests 0) (← operandAt sources 0) (← operandAt sources 1)
  | .fmul => return mul (← operandAt dests 0) (← operandAt sources 0) (← operandAt sources 1)
  | .dp => dot (← operandAt dests 0) left right
  | .smp => sample dests sources
  | .wdf => return deschedule
  | .nop => return plain .nop dests sources

/-! ### Reading and renaming -/

def asCopy (instruction : Instruction) : Option (Register × Register) :=
  match instruction.opcode, instruction.dests, instruction.sources with
  | .mov, [dest], [source] => some (dest, source)
  | _, _, _ => none

/-- Writes and reads `replacement` wherever the instruction named `register`. -/
def rename (instruction : Instruction) (register replacement : Register) : Instruction :=
  let swap := fun operand => if operand = register then replacement else operand
  { instruction with
    dests := instruction.dests.map swap
    sources := instruction.sources.map swap }

/-! ### Printing -/

def operandText (operands : List Register) : String :=
  if operands.isEmpty then "" else " " ++ Register.listText operands

/-- An instruction as it is printed in a listing. Swizzles that read in order are left
out. -/
def text (instruction : Instruction) : Except Breach String := do
  let arrow := if instruction.dests.isEmpty || instruction.sources.isEmpty then "" else " <-"
  let swizzles ← (instruction.swizzles.filter (!·.isIdentity)).mapM Swizzle.text
  return instruction.opcode.mnemonic ++ operandText instruction.dests ++ arrow ++
    operandText instruction.sources ++ String.join (swizzles.map (" ." ++ ·))

end Instruction

end RegisterChains

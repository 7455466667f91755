/-
This file defines the standard target, a unified shader core. Samples write an even run and
read their coordinates through a swizzle, dot products read both vectors through swizzles,
and wide moves need a run on both sides. Wide moves and packs can be split into single
moves, and samples can drop channels that nobody reads.
-/

import RegisterChains.Target

namespace RegisterChains

/-- What can be configured about the standard target. -/
structure MachineSpec where
  limits : BankLimits
  constants : List UInt32
  packWidth : Nat
deriving DecidableEq, Repr

namespace MachineSpec

/-- The configuration of the hardware. The constants are the bit patterns of 0, 1, 0, 0, 1,
1, 2 and -1. -/
def standard : MachineSpec where
  limits := ⟨4, 8, 4, 8⟩
  constants := [0, 0x3f800000, 0, 0, 0x3f800000, 0x3f800000, 0x40000000, 0xbf800000]
  packWidth := 4

def runs (instruction : Instruction) : List OperandRun :=
  let dests := instruction.dests.length
  let sources := instruction.sources.length
  match instruction.opcode with
  | .pack => if 2 ≤ dests then [.dests 0 dests .any] else []
  | .vmov => if 2 ≤ dests then [.dests 0 dests .any, .sources 0 sources none] else []
  | .dp =>
    if 4 ≤ sources then
      [.sources 0 (sources / 2) (some 0), .sources (sources / 2) (sources / 2) (some 1)]
    else []
  | .smp =>
    (if 0 < dests then [.dests 0 dests .even] else []) ++
      (if 2 ≤ sources then [.sources 0 sources (some 0)] else [])
  | _ => []

/-- Whether an operand could come from a bank. Destinations are temporaries or outputs, no
source is an output, and a sample cannot index the constants at run time. -/
def acceptsBank (instruction : Instruction) (side : Side) (_slot : Nat) (bank : Bank)
    (mode : IndexMode) : Bool :=
  match side, bank with
  | .dest, .temp | .dest, .output => true
  | .dest, _ => false
  | .source, .temp | .source, .primary => true
  | .source, .output => false
  | .source, .constant => !(instruction.opcode == .smp && mode == .dynamic)

/-- Whether a list names each of the first `count` positions once. -/
def isPermutation (order : List Nat) (count : Nat) : Bool :=
  order.length == count && (List.range count).all (order.contains ·)

/-- Source runs can be read in any order when there is a swizzle to read them through. -/
def acceptsOrder (instruction : Instruction) (run : OperandRun) (order : List Nat) : Bool :=
  let swizzled := match run.swizzle with
    | some slot => decide (slot < instruction.swizzles.length)
    | none => false
  run.side == .source && isPermutation order run.count && swizzled

/-- Whether a move to a destination would overwrite an operand that a later move reads. -/
def clobbers (instruction : Instruction) : Bool :=
  instruction.dests.zipIdx.any fun (dest, index) =>
    (instruction.sources.drop (index + 1)).contains dest

/-- A copy as single moves, in order, unless one would overwrite what a later one reads. -/
def splitIntoMoves (instruction : Instruction) : Option Relaxation :=
  if clobbers instruction then none
  else some (.expand (List.zipWith Instruction.move instruction.dests instruction.sources))

/-- Whether the channel of a destination is read later on. The mask has eight channels. -/
def channelUsed (instruction : Instruction) (index : Nat) : Except Breach Bool :=
  let channel := instruction.firstChannel.toNat + index
  if channel < 8 then .ok (instruction.writeMask.toNat.testBit channel) else .error .overflow

/-- The first of some destinations whose channel is read later on. Destinations are only
looked at up to that one. -/
def firstUsed (instruction : Instruction) : List Nat → Except Breach (Option Nat)
  | [] => .ok none
  | index :: rest => do
    if ← channelUsed instruction index then return some index
    firstUsed instruction rest

/-- A sample without the unread channels at either end, unless there are none, or only
such. -/
def narrowSample (instruction : Instruction) : Except Breach (Option Relaxation) := do
  let indices := List.range instruction.dests.length
  let some low ← firstUsed instruction indices | return none
  let some high ← firstUsed instruction indices.reverse | return none
  if high - low + 1 = instruction.dests.length then
    return none
  return some (.narrow { instruction with
    dests := (instruction.dests.drop low).take (high - low + 1)
    firstChannel := (instruction.firstChannel.toNat + low).toUInt8 })

def relax (instruction : Instruction) (run : OperandRun) : Except Breach (Option Relaxation) :=
  match instruction.opcode, run.side with
  | .vmov, _ | .pack, _ => .ok (splitIntoMoves instruction)
  | .smp, .dest => narrowSample instruction
  | _, _ => .ok none

def constantValue (spec : MachineSpec) (number : UInt32) : Option UInt32 :=
  spec.constants[number.toNat]?

/-- The first place in the constant bank, of the given parity, where these values stand in
order. No place holds no values. -/
def constantRun (spec : MachineSpec) (values : List UInt32) (parity : Parity) : Option UInt32 :=
  if values.isEmpty then none
  else
    ((List.range spec.constants.length).find? fun start =>
      parity.allows start.toUInt32 && values.isPrefixOf (spec.constants.drop start)).map
        Nat.toUInt32

def target (spec : MachineSpec) : Target where
  limits := spec.limits
  runs := runs
  deschedules := fun instruction => instruction.opcode == .wdf
  acceptsBank := acceptsBank
  acceptsOrder := acceptsOrder
  reorder := Target.reorderBySwizzle acceptsOrder
  relax := relax
  constantValue := spec.constantValue
  constantRun := spec.constantRun
  packWidth := spec.packWidth

end MachineSpec

end RegisterChains

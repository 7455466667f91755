/-
This file defines the questions that are asked about a target. A target says which runs of
operands have to be consecutive and how long they may be, and what its encodings allow: a
run read in another order, an operand from another bank, a cheaper form of an instruction.
A target is a record of its answers, so a target of any kind can be put together from
parts of another.
-/

import RegisterChains.Instruction

namespace RegisterChains

inductive Side where
  | dest
  | source
deriving DecidableEq, Repr

namespace Side

def name : Side → String
  | dest => "Dest"
  | source => "Source"

def label : Side → String
  | dest => "dest"
  | source => "source"

def ofLabel? (label : String) : Option Side :=
  [dest, source].find? fun side => side.label == label

end Side

inductive IndexMode where
  | direct
  /-- By its number and an index known at run time. -/
  | dynamic
deriving DecidableEq, Repr

/-! ### Runs of operands -/

/-- A run of operands of one instruction that has to be consecutive, in order. -/
structure OperandRun where
  side : Side
  start : Nat
  count : Nat
  parity : Parity
  /-- The index of the swizzle that the run is read through. -/
  swizzle : Option Nat
deriving DecidableEq, Repr

namespace OperandRun

def dests (start count : Nat) (parity : Parity) : OperandRun :=
  ⟨.dest, start, count, parity, none⟩

def sources (start count : Nat) (swizzle : Option Nat) : OperandRun :=
  ⟨.source, start, count, .any, swizzle⟩

def list (run : OperandRun) (instruction : Instruction) : List Register :=
  match run.side with
  | .dest => instruction.dests
  | .source => instruction.sources

def operands (run : OperandRun) (instruction : Instruction) : Except Breach (List Register) :=
  if run.start + run.count ≤ (run.list instruction).length then
    .ok (((run.list instruction).drop run.start).take run.count)
  else
    .error .outOfRange

/-- A list with the entries from `start` on replaced by others. -/
def spliced (start : Nat) (replacements list : List Register) : List Register :=
  list.take start ++ replacements ++ list.drop (start + replacements.length)

def replace (run : OperandRun) (instruction : Instruction) (replacements : List Register) :
    Except Breach Instruction := do
  let _ ← run.operands instruction
  if replacements.length ≠ run.count then
    throw .unequalLengths
  match run.side with
  | .dest =>
    return { instruction with dests := spliced run.start replacements instruction.dests }
  | .source =>
    return { instruction with sources := spliced run.start replacements instruction.sources }

end OperandRun

/-! ### Cheaper encodings -/

/-- A way to encode an instruction without the run that stands in the way. -/
inductive Relaxation where
  | narrow (instruction : Instruction)
  /-- A sequence that does the same without the run. -/
  | expand (sequence : List Instruction)
deriving DecidableEq, Repr

namespace Relaxation

def added : Relaxation → Nat
  | narrow _ => 0
  | expand sequence => sequence.length - 1

end Relaxation

/-! ### Targets -/

structure BankLimits where
  temp : Nat
  primary : Nat
  output : Nat
  constant : Nat
deriving DecidableEq, Repr

namespace BankLimits

def get (limits : BankLimits) : Bank → Nat
  | .temp => limits.temp
  | .primary => limits.primary
  | .output => limits.output
  | .constant => limits.constant

def set (limits : BankLimits) (bank : Bank) (limit : Nat) : BankLimits :=
  match bank with
  | .temp => { limits with temp := limit }
  | .primary => { limits with primary := limit }
  | .output => { limits with output := limit }
  | .constant => { limits with constant := limit }

/-- Replaces the numbers of some banks, one after the other. -/
def setAll (limits : BankLimits) (changes : List (Bank × Nat)) : BankLimits :=
  changes.foldl (fun limits (bank, limit) => limits.set bank limit) limits

end BankLimits

structure Target where
  limits : BankLimits
  runs : Instruction → List OperandRun
  /-- Whether an instruction is a point where the shader may be descheduled. -/
  deschedules : Instruction → Bool
  acceptsBank : Instruction → Side → Nat → Bank → IndexMode → Bool
  /-- Whether an instruction can still be encoded when position `p` of a run takes the
  operand that was at `order[p]`. -/
  acceptsOrder : Instruction → OperandRun → List Nat → Bool
  /-- The instruction with a run in another order that computes the same, if there is
  one. -/
  reorder : Instruction → OperandRun → List Nat → Except Breach (Option Instruction)
  relax : Instruction → OperandRun → Except Breach (Option Relaxation)
  constantValue : UInt32 → Option UInt32
  /-- The first of consecutive constant registers that hold these values. -/
  constantRun : List UInt32 → Parity → Option UInt32
  packWidth : Nat

namespace Target

/-- Reorders a run by moving its operands and letting its swizzle follow. `accepts` says
which orders can be encoded. -/
def reorderBySwizzle (accepts : Instruction → OperandRun → List Nat → Bool)
    (instruction : Instruction) (run : OperandRun) (order : List Nat) :
    Except Breach (Option Instruction) := do
  if order.length ≠ run.count || !accepts instruction run order then
    return none
  let some slot := run.swizzle | return none
  let operands ← run.operands instruction
  let reordered ← order.mapM fun origin =>
    match operands[origin]? with
    | some operand => Except.ok operand
    | none => Except.error Breach.outOfRange
  let moved ← run.replace instruction reordered
  let some swizzle := moved.swizzles[slot]? | throw .outOfRange
  return some { moved with swizzles := moved.swizzles.set slot (swizzle.permuted order) }

end Target

end RegisterChains

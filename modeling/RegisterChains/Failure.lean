/-
This file defines the ways an operation can stop. A reported error belongs to the job:
a resource ran out, or the constraints of a program contradict each other. A breach means
that a caller broke the rules of an operation, or that a number left its range; nothing is
promised about what is left behind after one.
-/

import RegisterChains.Key
import RegisterChains.Parity
import RegisterChains.Chain.Conflict

namespace RegisterChains

/-! ### Reported errors -/

/-- The contradictions that can be found in a constraint graph, in the descriptors that
seed it, or in the numbers assigned to it. -/
inductive Inconsistency where
  | unregistered (node : NodeId) (register : Register)
  | successorStray (node : NodeId)
  | predecessorStray (node : NodeId)
  | parityRepeats (first second : Register)
  | pinsApart (first second : Register)
  /-- A node is a listed head with a predecessor, or an unlisted one without. -/
  | headSet (node : NodeId)
  | cycle (head : NodeId)
  | overlong (head : NodeId) (length limit : Nat)
  /-- A register cannot follow another although the run was judged to fit. -/
  | commitLink (second first : Register)
  /-- A register cannot take a parity although the run was judged to fit. -/
  | commitParity (register : Register) (parity : Parity)
  /-- A descriptor names an operand that is not virtual. -/
  | pinnedOperand (register : Register) (binding : BindingId)
  | sharedByArrays (register : Register)
  | outputWithoutBlocks
  | arrayWithoutBlocks
  | seedParity (register : Register) (binding : BindingId)
  | seedLink (second first : Register) (binding : BindingId)
  | shortRange
  /-- The registers a repair settled on still do not fit. -/
  | unrepaired (registers : List Register) (conflict : Conflict)
  | hoistWithoutPreamble
  | notHead (node : NodeId)
  | numberingOverlong (head : NodeId) (length : Nat) (bank : Bank) (limit : Nat)
  | numberingOverflow (head : NodeId) (base : UInt32)
  | numberParity (register : Register) (parity : Parity) (number : UInt32)
  | numberPinned (register : Register) (physical number : UInt32)
deriving DecidableEq, Repr

namespace Inconsistency

def message : Inconsistency → String
  | unregistered node register =>
    node.text ++ " is not registered for " ++ register.text
  | successorStray node => node.text ++ ".next.prev is not " ++ node.text
  | predecessorStray node => node.text ++ ".prev.next is not " ++ node.text
  | parityRepeats first second =>
    "alignment does not alternate between " ++ first.text ++ " and " ++ second.text
  | pinsApart first second =>
    "fixed registers " ++ first.text ++ " and " ++ second.text ++ " cannot be adjacent"
  | headSet node => "head set is wrong about " ++ node.text
  | cycle head => "chain at " ++ head.text ++ " has a cycle"
  | overlong head length limit =>
    "chain at " ++ head.text ++ s!" has {length} registers, the maximum is {limit}"
  | commitLink second first =>
    second.text ++ " cannot follow " ++ first.text ++ " in a group that was validated"
  | commitParity register parity =>
    register.text ++ " cannot be " ++ parity.text ++ " in a group that was validated"
  | pinnedOperand register binding =>
    register.text ++ " in " ++ binding.text ++ " is not a virtual register"
  | sharedByArrays register => register.text ++ " is a member of two arrays"
  | outputWithoutBlocks => "output binding in a function without blocks"
  | arrayWithoutBlocks => "array binding in a function without blocks"
  | seedParity register binding =>
    register.text ++ " cannot satisfy the alignment of " ++ binding.text
  | seedLink second first binding =>
    second.text ++ " cannot follow " ++ first.text ++ " in " ++ binding.text
  | shortRange => "register allocator returned a short range"
  | unrepaired registers conflict =>
    "repaired group [" ++ Register.listText registers ++ "] still conflicts: " ++
      conflict.message
  | hoistWithoutPreamble => "hoisting a copy without a preamble"
  | notHead node => node.text ++ " is not the head of a chain"
  | numberingOverlong head length bank limit =>
    "chain at " ++ head.text ++ s!" has {length} registers, " ++ bank.name ++
      s!" allows {limit}"
  | numberingOverflow head base =>
    "numbering " ++ head.text ++ " from " ++ toString base.toNat ++ " overflows"
  | numberParity register parity number =>
    register.text ++ " needs an " ++ parity.text ++ " number, got " ++
      toString number.toNat
  | numberPinned register physical number =>
    register.text ++ " is fixed to " ++ toString physical.toNat ++ ", got " ++
      toString number.toNat

end Inconsistency

inductive ResolutionError where
  | outOfRegisters (requested : Nat)
  | outOfInstructions
  | internal (cause : Inconsistency)
deriving DecidableEq, Repr

namespace ResolutionError

def label : ResolutionError → String
  | outOfRegisters _ => "OutOfRegisters"
  | outOfInstructions => "OutOfInstructions"
  | internal _ => "Internal"

def message : ResolutionError → String
  | outOfRegisters requested => s!"out of virtual registers (requested {requested})"
  | outOfInstructions => "unable to allocate instruction"
  | internal cause => "internal grouping error: " ++ cause.message

end ResolutionError

/-! ### Breaches -/

/-- The rules an operation can find broken. -/
inductive Breach where
  | keyTooLarge
  /-- A side table has no entry for the printed key. -/
  | unmapped (key : String)
  /-- A pool has no entry for the printed key. -/
  | emptySlot (key : String)
  | tooManyLanes
  | blockPlacedTwice
  | instructionPlacedTwice
  /-- An instruction is taken out of a layout that does not have it. -/
  | notPlaced (instruction : InstructionId)
  /-- A chain node is asked for an operand that is not virtual. -/
  | notVirtual (register : Register)
  | releasedCopy (register : Register)
  /-- A verified assignment of numbers does not meet the constraints. -/
  | invalidAssignment (error : ResolutionError)
  | outOfRange
  | overflow
  | unequalLengths
  | detachedTwice
  | mixedRun
  /-- A node that was passed for a register stands for another one. -/
  | strayNode
  /-- A cache without copies still lists values. -/
  | leftoverClass
deriving DecidableEq, Repr

namespace Breach

/-- The text of a breach. Those that concern only the range of a number or the length of
a list have none. -/
def message? : Breach → Option String
  | keyTooLarge => some "index is not representable with key type"
  | unmapped key => some (key ++ " is not mapped in secondary map")
  | emptySlot key => some (key ++ " refers to a removed pool slot")
  | tooManyLanes => some "swizzles cover at most four lanes"
  | blockPlacedTwice => some "cannot insert block that is already inserted"
  | instructionPlacedTwice => some "cannot insert same inst multiple times"
  | notPlaced instruction =>
    some ("removing " ++ instruction.text ++ " which is not in the layout")
  | notVirtual register =>
    some ("only virtual registers get nodes, got " ++ register.text)
  | releasedCopy register =>
    some ("releasing " ++ register.text ++ " while a copy record refers to it")
  | invalidAssignment error => some ("invalid assignment: " ++ error.message)
  | outOfRange | overflow | unequalLengths | detachedTwice | mixedRun | strayNode
  | leftoverClass => none

end Breach

/-- Why an operation stopped. -/
inductive Failure where
  | error (error : ResolutionError)
  | breach (breach : Breach)
deriving DecidableEq, Repr

namespace Key

variable {kind : KeyKind}

def ofIndex (kind : KeyKind) (index : Nat) : Except Breach (Key kind) :=
  match ofIndex? kind index with
  | some key => .ok key
  | none => .error .keyTooLarge

end Key

end RegisterChains

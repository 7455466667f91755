/-
This file defines the nodes of a chain graph. A node stands for one virtual register that
some constraint concerns. Its predecessor needs the hardware number directly below, its
successor the one directly above.
-/

import RegisterChains.Failure

namespace RegisterChains

/-! ### Pins -/

/-- Where a pinned register has to live. -/
structure Pin where
  binding : BindingId
  offset : UInt32
  bank : Bank
  physical : Option UInt32
deriving DecidableEq, Repr

namespace Pin

/-- Whether a register pinned by `second` can have the number directly after a register
pinned by `first`. Two given numbers have to follow each other in one bank, and two pins
without a number have to be neighbours in one descriptor. Anything else cannot be known to
be adjacent. -/
def canPrecede (first second : Pin) : Bool :=
  match first.physical, second.physical with
  | some low, some high => first.bank == second.bank && low.toNat + 1 == high.toNat
  | none, none =>
    first.binding == second.binding && first.offset.toNat + 1 == second.offset.toNat
  | _, _ => false

/-- Whether the offset after `first` has to be computed to answer, and is out of range. -/
def offsetOverflows (first second : Pin) : Bool :=
  first.physical.isNone && second.physical.isNone && first.binding == second.binding &&
    first.offset == 0xffffffff

/-- The same answer for pins of any origin. Offsets inside a graph count the members of a
descriptor and have a successor in 32 bits; an offset given from outside may not. -/
def precedes (first second : Pin) : Except Breach Bool :=
  if first.offsetOverflows second then .error .overflow else .ok (first.canPrecede second)

end Pin

/-! ### Nodes -/

inductive Payload where
  | empty
  /-- The register holds a copy that the cache of the current block knows. -/
  | copy (id : CopyId)
  | arrayMember (binding : BindingId)
deriving DecidableEq, Repr

structure Node where
  register : Register
  prev : Option NodeId
  next : Option NodeId
  parity : Parity
  /-- Whether an instruction or a descriptor demands the parity, rather than a hardware
  number that implies it. -/
  parityMandatory : Bool
  pin : Option Pin
  optionalLink : Bool
  /-- Whether the link to `next` comes from a run of an instruction. -/
  instructionLinked : Bool
  payload : Payload
deriving DecidableEq, Repr

namespace Node

def unconstrained (register : Register) : Node where
  register := register
  prev := none
  next := none
  parity := .any
  parityMandatory := false
  pin := none
  optionalLink := false
  instructionLinked := false
  payload := .empty

/-- Whether a walk goes on to the successor. A walk over mandatory links stops where a link
is optional. -/
def leadsOn (node : Node) (mandatoryOnly : Bool) : Bool :=
  node.next.isSome && (!mandatoryOnly || !node.optionalLink)

end Node

end RegisterChains

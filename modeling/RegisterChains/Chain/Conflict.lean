/-
This file defines candidate runs and the reasons a candidate cannot be made consecutive.
A position of a candidate is an operand, a register that is still to be allocated, or a
position that has not been decided yet.
-/

import RegisterChains.Register

namespace RegisterChains

/-- One position of a candidate run. -/
inductive Slot where
  | register (register : Register)
  /-- A register that is still to be allocated, and so has no constraints. -/
  | fresh
  /-- A position not decided yet. A neighbour's demand on it is taken to be met. -/
  | undecided
deriving DecidableEq, Repr

namespace Slot

def text : Slot → String
  | register operand => "Reg(" ++ operand.describe ++ ")"
  | fresh => "Fresh"
  | undecided => "Open"

def listText (slots : List Slot) : String :=
  "[" ++ ", ".intercalate (slots.map text) ++ "]"

end Slot

/-- Why a candidate cannot be made consecutive. The index is the position that was being
looked at when the problem was found. -/
inductive Conflict where
  | duplicate (index : Nat)
  | notGroupable (index : Nat)
  /-- Hardware numbers that do not ascend in one bank, or hardware numbers mixed with
  other operands. -/
  | numbering (index : Nat)
  /-- The parity the position needs is not the one the register has. -/
  | parity (index : Nat)
  /-- The register is already required next to another one. -/
  | neighbour (index : Nat)
  /-- The register is in a chain, at a place that does not fit its position here. -/
  | position (index : Nat)
  /-- Pinned registers that cannot follow each other in this order. -/
  | pinned (index : Nat)
  | bank (index : Nat)
  /-- The joined chain would be longer than its bank allows. -/
  | tooLong (length limit : Nat)
deriving DecidableEq, Repr

namespace Conflict

def label : Conflict → String
  | duplicate _ => "Duplicate"
  | notGroupable _ => "NotGroupable"
  | numbering _ => "Numbering"
  | parity _ => "Alignment"
  | neighbour _ => "Neighbour"
  | position _ => "Position"
  | pinned _ => "FixedBinding"
  | bank _ => "Bank"
  | tooLong _ _ => "TooLong"

def index? : Conflict → Option Nat
  | duplicate index | notGroupable index | numbering index | parity index | neighbour index
  | position index | pinned index | bank index => some index
  | tooLong _ _ => none

def message : Conflict → String
  | duplicate index => s!"operand {index} is a duplicate"
  | notGroupable index => s!"operand {index} is an immediate"
  | numbering index => s!"operand {index} breaks the hardware numbering"
  | parity index => s!"operand {index} has the wrong alignment"
  | neighbour index => s!"operand {index} already has another neighbour"
  | position index => s!"operand {index} is at a different chain position"
  | pinned index => s!"operand {index} has an incompatible fixed binding"
  | bank index => s!"operand {index} is pinned to another bank"
  | tooLong length limit =>
    s!"group would be {length} registers long, the maximum is {limit}"

end Conflict

end RegisterChains

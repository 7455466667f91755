/-
This file defines the descriptors that pin registers to a place. The members of a
descriptor are consecutive in its order. It names the bank, and sometimes the hardware
number of the first member.
-/

import RegisterChains.Failure

namespace RegisterChains

inductive DescriptorKind where
  /-- Inputs, which the hardware writes before the shader starts. -/
  | input
  /-- Outputs, which the hardware reads after the shader ends. -/
  | output
  | array
deriving DecidableEq, Repr

namespace DescriptorKind

def name : DescriptorKind → String
  | input => "Input"
  | output => "Output"
  | array => "Array"

def label : DescriptorKind → String
  | input => "input"
  | output => "output"
  | array => "array"

def ofLabel? (label : String) : Option DescriptorKind :=
  [input, output, array].find? fun kind => kind.label == label

end DescriptorKind

structure Descriptor where
  kind : DescriptorKind
  bank : Bank
  physical : Option UInt32
  /-- What the first member needs besides. -/
  parity : Parity
  /-- Whether the members only prefer to be consecutive. -/
  advisory : Bool
  registers : List Register
deriving DecidableEq, Repr

namespace Descriptor

def input (bank : Bank) (physical : Option UInt32) (registers : List Register) : Descriptor :=
  ⟨.input, bank, physical, .any, false, registers⟩

/-- Outputs that have to end up at `physical`, or anywhere in the bank. -/
def output (bank : Bank) (physical : Option UInt32) (registers : List Register) : Descriptor :=
  ⟨.output, bank, physical, .any, false, registers⟩

def array (registers : List Register) : Descriptor :=
  ⟨.array, .temp, none, .any, false, registers⟩

/-- The hardware number of a member, if the first one has one. The sum has to stay in 32
bits. -/
def physicalAt (descriptor : Descriptor) (offset : Nat) : Except Breach (Option UInt32) :=
  match descriptor.physical with
  | none => .ok none
  | some base =>
    let member := base.toNat + offset.toUInt32.toNat
    if member < UInt32.size then .ok (some member.toUInt32) else .error .overflow

def offsetOf (descriptor : Descriptor) (register : Register) : Option Nat :=
  descriptor.registers.idxOf? register

end Descriptor

end RegisterChains

/-
This file says how operands, instructions, descriptors, options and keys are exchanged.
-/

import RegisterChains.Descriptor
import RegisterChains.Instruction
import RegisterChains.Interchange.Codec
import RegisterChains.Options

namespace RegisterChains

namespace Interchange

namespace Codec

/-! ### Operands -/

def bank : Codec Bank := alternatives Bank.name [.temp, .primary, .output, .constant]

def registerKind : Codec RegisterKind :=
  alternatives RegisterKind.name [.temp, .primary, .output, .constant, .immediate]

def parityName : Parity → String
  | .any => "None"
  | .even => "Even"
  | .odd => "Odd"

def parity : Codec Parity := alternatives parityName [.any, .even, .odd]

def registerFields : List Field := [.required "kind", .required "number"]

def register : Codec Register where
  encode operand :=
    .record registerFields [registerKind.encode operand.kind, word32.encode operand.number]
  decode value := do
    let [kind, number] ← value.fields registerFields | none
    return ⟨← registerKind.decode kind, ← word32.decode number⟩

/-! ### Instructions -/

def opcodeName : Opcode → String
  | .mov => "Mov"
  | .pack => "Pack"
  | .vmov => "VMov"
  | .fadd => "FAdd"
  | .fmul => "FMul"
  | .dp => "Dp"
  | .smp => "Smp"
  | .wdf => "Wdf"
  | .nop => "Nop"

def opcode : Codec Opcode :=
  alternatives opcodeName [.mov, .pack, .vmov, .fadd, .fmul, .dp, .smp, .wdf, .nop]

def lanes : Codec (Vector UInt8 4) where
  encode lanes := (list word8).encode lanes.toList
  decode value := do
    let [first, second, third, fourth] ← (list word8).decode value | none
    return #v[first, second, third, fourth]

def swizzleFields : List Field := [.required "lanes", .required "len"]

/-- A swizzle, with all four lanes whatever its length. -/
def swizzle : Codec Swizzle where
  encode swizzle :=
    .record swizzleFields [lanes.encode swizzle.lanes, word8.encode swizzle.length]
  decode value := do
    let [selection, length] ← value.fields swizzleFields | none
    return ⟨← lanes.decode selection, ← word8.decode length⟩

def instructionFields : List Field :=
  [.required "opcode", .required "dests", .required "sources", .required "swizzles",
    .required "write_mask", .required "first_channel"]

def instruction : Codec Instruction where
  encode instruction :=
    .record instructionFields
      [opcode.encode instruction.opcode, (list register).encode instruction.dests,
        (list register).encode instruction.sources, (list swizzle).encode instruction.swizzles,
        word8.encode instruction.writeMask, word8.encode instruction.firstChannel]
  decode value := do
    let [code, dests, sources, swizzles, mask, channel] ← value.fields instructionFields | none
    return ⟨← opcode.decode code, ← (list register).decode dests,
      ← (list register).decode sources, ← (list swizzle).decode swizzles,
      ← word8.decode mask, ← word8.decode channel⟩

/-! ### Descriptors -/

def descriptorKind : Codec DescriptorKind :=
  alternatives DescriptorKind.name [.input, .output, .array]

/-- The fields of a descriptor. The hardware number may be left out. -/
def descriptorFields : List Field :=
  [.required "kind", .required "bank", .absentable "physical", .required "alignment",
    .required "advisory", .required "regs"]

def descriptor : Codec Descriptor where
  encode descriptor :=
    .record descriptorFields
      [descriptorKind.encode descriptor.kind, bank.encode descriptor.bank,
        (option word32).encode descriptor.physical, parity.encode descriptor.parity,
        truth.encode descriptor.advisory, (list register).encode descriptor.registers]
  decode value := do
    let [kind, home, physical, demanded, advisory, members] ←
      value.fields descriptorFields | none
    return ⟨← descriptorKind.decode kind, ← bank.decode home,
      ← (option word32).decode physical, ← parity.decode demanded,
      ← truth.decode advisory, ← (list register).decode members⟩

/-! ### Options and keys -/

def optionFields : List Field :=
  [.required "reorder_operands", .required "substitute_constants",
    .required "relax_encodings", .required "reuse_copies", .required "pack_copies",
    .required "hoist_uniform_copies", .required "recycle_dead_copies",
    .required "verify_assignments"]

def options : Codec Options where
  encode options :=
    .record optionFields
      ([options.reorderOperands, options.substituteConstants, options.relaxEncodings,
        options.reuseCopies, options.packCopies, options.hoistUniformCopies,
        options.recycleDeadCopies, options.verifyAssignments].map truth.encode)
  decode value := do
    let [reorder, substitute, relax, reuse, pack, hoist, recycle, verify] ←
      (← value.fields optionFields).mapM truth.decode | none
    return ⟨reorder, substitute, relax, reuse, pack, hoist, recycle, verify⟩

def instructionId : Codec InstructionId where
  encode key := .integer key.index
  decode value := (naturalBelow KeyKind.instruction.capacity value).map Key.mk

end Codec

end Interchange

end RegisterChains

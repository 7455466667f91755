/-
This file defines instructions as they are written down. Nothing is checked about a draft
until the instruction is made from it, so a list of drafts can hold one that breaks a rule,
and the breach shows when its turn comes.
-/

import RegisterChains.Instruction

namespace RegisterChains

structure Draft where
  opcode : Opcode
  /-- Whether the operands are taken as they are, without the rules of the opcode. -/
  isRaw : Bool := false
  dests : List Register := []
  sources : List Register := []
  left : List Register := []
  right : List Register := []
  /-- The mask, if it is not the one that the opcode gives. -/
  writeMask : Option UInt8 := none
  firstChannel : Option UInt8 := none
  /-- The lanes of every swizzle, if they are not those that the opcode gives. -/
  lanes : Option (List (List UInt8)) := none
deriving DecidableEq, Repr

namespace Draft

def plain (draft : Draft) : Except Breach Instruction :=
  if draft.isRaw then
    .ok (.plain draft.opcode draft.dests draft.sources)
  else
    Instruction.ofOperands draft.opcode draft.dests draft.sources draft.left draft.right

/-- Makes the instruction. The operands are checked before the lanes. -/
def make (draft : Draft) : Except Breach Instruction := do
  let plain ← draft.plain
  let swizzles ← match draft.lanes with
    | some lanes => lanes.mapM Swizzle.ofLanes
    | none => pure plain.swizzles
  return { plain with
    writeMask := draft.writeMask.getD plain.writeMask
    firstChannel := draft.firstChannel.getD plain.firstChannel
    swizzles := swizzles }

end Draft

end RegisterChains

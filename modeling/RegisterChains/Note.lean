/-
This file defines the notes that operations make of what they do. A note is a value of its
own, and what is printed of it is decided here alone.
-/

import RegisterChains.Descriptor
import RegisterChains.Stats
import RegisterChains.Target

namespace RegisterChains

inductive Level where
  | error
  | info
  /-- What was done to an instruction or a descriptor. -/
  | debug
  | trace
deriving DecidableEq, Repr

namespace Level

def name : Level → String
  | error => "error"
  | info => "info"
  | debug => "debug"
  | trace => "trace"

def ofName? (name : String) : Option Level :=
  [error, info, debug, trace].find? fun level => level.name == name

def rank : Level → Nat
  | error => 0
  | info => 1
  | debug => 2
  | trace => 3

/-- Whether notes of one level are shown when those of another are asked for. -/
def shows (asked level : Level) : Bool := decide (level.rank ≤ asked.rank)

end Level

inductive Note where
  | created (node : NodeId) (register : Register)
  | released (node : NodeId) (register : Register)
  | linkRefused (first second : Register)
  | linked (first second : Register) (mandatory : Bool)
  | unlinked (first second : Register)
  | rejected (slots : List Slot) (conflict : Conflict)
  | copyKnown (dest value : Register) (block : BlockId)
  | copiesDropped (count : Nat) (block : BlockId)
  | bound (register : Register) (offset : UInt32) (binding : BindingId)
  /-- A copy of a contested register takes its place as an output. -/
  | outputTaken (register : Register) (owner : DescriptorKind) (holder : Register)
  | separated (register : Register) (owner : DescriptorKind) (fresh : Register)
      (kind : DescriptorKind)
  | blockBegun (name : String)
  | conflicts (instruction : InstructionId) (side : Side) (registers : List Register)
      (conflict : Conflict)
  | reordered (instruction : InstructionId)
  | substituted (instruction : InstructionId)
  | planless (instruction : InstructionId)
  /-- A cheaper encoding costs more than copies. -/
  | relaxationDear (instruction : InstructionId) (added cost : Nat)
  | narrowed (instruction : InstructionId) (listing : String)
  | expanded (instruction : InstructionId) (count : Nat)
  | repaired (instruction : InstructionId) (registers : List Register)
  /-- An instruction is gone, and the walk goes on elsewhere. -/
  | replaced (instruction : InstructionId) (resume : Option InstructionId)
  | descheduled (instruction : InstructionId)
  | resolved (name : String) (stats : Stats)
  | assignmentInvalid (error : ResolutionError)
deriving DecidableEq, Repr

namespace Note

def level : Note → Level
  | assignmentInvalid _ => .error
  | resolved _ _ => .info
  | outputTaken .. | separated .. | blockBegun _ | conflicts .. | reordered _ | substituted _
  | narrowed .. | expanded .. | repaired .. => .debug
  | created .. | released .. | linkRefused .. | linked .. | unlinked .. | rejected ..
  | copyKnown .. | copiesDropped .. | bound .. | planless _ | relaxationDear .. | replaced ..
  | descheduled _ => .trace

/-- A note as it is printed, without its level. -/
def message : Note → String
  | created node register => "created node " ++ node.text ++ " for " ++ register.text
  | released node register => "released node " ++ node.text ++ " for " ++ register.text
  | linkRefused first second => "refusing to link " ++ first.text ++ " -> " ++ second.text
  | linked first second mandatory =>
    "linked " ++ first.text ++ " -> " ++ second.text ++ (if mandatory then "" else " (optional)")
  | unlinked first second => "unlinked " ++ first.text ++ " -> " ++ second.text
  | rejected slots conflict =>
    "candidate " ++ Slot.listText slots ++ " rejected: " ++ conflict.message
  | copyKnown dest value block =>
    dest.text ++ " holds a copy of " ++ value.text ++ " in " ++ block.text
  | copiesDropped count block => s!"dropping {count} copies at the end of " ++ block.text
  | bound register offset binding =>
    "bound " ++ register.text ++ " as member " ++ toString offset.toNat ++ " of " ++ binding.text
  | outputTaken register owner holder =>
    register.text ++ " is already bound as " ++ owner.name ++ ", its copy in " ++ holder.text ++
      " becomes the output"
  | separated register owner fresh kind =>
    register.text ++ " is already bound as " ++ owner.name ++ ", using " ++ fresh.text ++
      " for " ++ kind.name
  | blockBegun name => "grouping " ++ name
  | conflicts instruction side registers conflict =>
    instruction.text ++ ": " ++ side.name ++ " group [" ++ Register.listText registers ++
      "] conflicts: " ++ conflict.message
  | reordered instruction => instruction.text ++ ": reading the group in chain order"
  | substituted instruction =>
    instruction.text ++ ": reading the group from the constant bank"
  | planless instruction => instruction.text ++ ": no plan validates, copying every member"
  | relaxationDear instruction added cost =>
    instruction.text ++ s!": relaxing adds {added} instructions, copying adds {cost}"
  | narrowed instruction listing => instruction.text ++ ": narrowed to " ++ listing
  | expanded instruction count =>
    instruction.text ++ s!": expanded into {count} instructions"
  | repaired instruction registers =>
    instruction.text ++ ": repaired as [" ++ Register.listText registers ++ "]"
  | replaced instruction resume =>
    instruction.text ++ " was replaced, resuming at " ++ Key.optionText resume
  | descheduled instruction =>
    instruction.text ++ " deschedules, forgetting every copy"
  | resolved name stats => "grouped " ++ name ++ ": " ++ stats.text
  | assignmentInvalid error => "invalid assignment: " ++ error.message

def shown (asked : Level) (notes : List Note) : List String :=
  (notes.filter fun note => asked.shows note.level).map fun note =>
    note.level.name ++ " " ++ note.message

end Note

end RegisterChains

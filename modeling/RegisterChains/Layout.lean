/-
This file defines the order of the blocks of a program and of the instructions in each
block. A block is a doubly linked list, so an instruction can be put in front of another or
behind it without moving the rest. A block can also be set aside: it holds instructions,
and the order of blocks leaves it out.
-/

import RegisterChains.Store.SideTable

namespace RegisterChains

structure Place where
  prev : Option InstructionId
  next : Option InstructionId
  block : BlockId
deriving DecidableEq, Repr

structure BlockEnds where
  next : Option BlockId
  first : Option InstructionId
  last : Option InstructionId
deriving DecidableEq, Repr

structure Layout where
  blocks : SideTable .block BlockEnds
  places : SideTable .instruction Place
  entry : Option BlockId
  exit : Option BlockId
deriving DecidableEq, Repr

namespace Layout

def empty : Layout := ⟨.empty, .empty, none, none⟩

instance : Inhabited Layout := ⟨empty⟩

/-! ### Reading the order -/

def contains (layout : Layout) (instruction : InstructionId) : Bool :=
  layout.places.contains instruction

/-- The blocks from one on. A list of distinct blocks is no longer than the table, which
bounds the walk. -/
def blocksFrom (layout : Layout) : Nat → Option BlockId → List BlockId
  | _, none => []
  | 0, some _ => []
  | budget + 1, some block =>
    block :: layout.blocksFrom budget ((layout.blocks.get? block).bind (·.next))

def blockList (layout : Layout) : List BlockId :=
  layout.blocksFrom layout.blocks.slots.size layout.entry

/-- The instructions of a block from one on, bounded like the walk over blocks. -/
def instructionsFrom (layout : Layout) : Nat → Option InstructionId → List InstructionId
  | _, none => []
  | 0, some _ => []
  | budget + 1, some instruction =>
    instruction ::
      layout.instructionsFrom budget ((layout.places.get? instruction).bind (·.next))

def firstOf (layout : Layout) (block : BlockId) : Except Breach (Option InstructionId) := do
  return (← layout.blocks.get block).first

def lastOf (layout : Layout) (block : BlockId) : Except Breach (Option InstructionId) := do
  return (← layout.blocks.get block).last

def instructionsOf (layout : Layout) (block : BlockId) : Except Breach (List InstructionId) := do
  return layout.instructionsFrom layout.places.slots.size (← layout.firstOf block)

def prevOf (layout : Layout) (instruction : InstructionId) :
    Except Breach (Option InstructionId) := do
  return (← layout.places.get instruction).prev

def nextOf (layout : Layout) (instruction : InstructionId) :
    Except Breach (Option InstructionId) := do
  return (← layout.places.get instruction).next

def followersOf (layout : Layout) (instruction : InstructionId) :
    Except Breach (List InstructionId) := do
  return layout.instructionsFrom layout.places.slots.size (← layout.nextOf instruction)

def blockOf (layout : Layout) (instruction : InstructionId) : Except Breach BlockId := do
  return (← layout.places.get instruction).block

/-! ### Placing blocks -/

def appendBlock (layout : Layout) (block : BlockId) : Except Breach Layout := do
  if layout.blocks.contains block then
    throw .blockPlacedTwice
  let blocks ← match layout.exit with
    | some last => layout.blocks.update last fun ends => { ends with next := some block }
    | none => pure layout.blocks
  return { layout with
    blocks := blocks.insert block ⟨none, none, none⟩
    entry := layout.entry <|> some block
    exit := some block }

/-- Adds a block that the order leaves out. -/
def setAside (layout : Layout) (block : BlockId) : Except Breach Layout := do
  if layout.blocks.contains block then
    throw .detachedTwice
  return { layout with blocks := layout.blocks.insert block ⟨none, none, none⟩ }

/-! ### Placing instructions -/

def append (layout : Layout) (instruction : InstructionId) (block : BlockId) :
    Except Breach Layout := do
  if layout.contains instruction then
    throw .instructionPlacedTwice
  let ends ← layout.blocks.get block
  let places ← match ends.last with
    | some last => layout.places.update last fun place => { place with next := some instruction }
    | none => pure layout.places
  return { layout with
    blocks := layout.blocks.insert block
      { ends with first := ends.first <|> some instruction, last := some instruction }
    places := places.insert instruction ⟨ends.last, none, block⟩ }

def insertBefore (layout : Layout) (instruction anchor : InstructionId) :
    Except Breach Layout := do
  if layout.contains instruction then
    throw .instructionPlacedTwice
  let place ← layout.places.get anchor
  let places := layout.places.modify anchor fun place => { place with prev := some instruction }
  let inserted : Place := ⟨place.prev, some anchor, place.block⟩
  match place.prev with
  | some prev =>
    let places ← places.update prev fun place => { place with next := some instruction }
    return { layout with places := places.insert instruction inserted }
  | none =>
    let blocks ← layout.blocks.update place.block fun ends =>
      { ends with first := some instruction }
    return { layout with blocks := blocks, places := places.insert instruction inserted }

def insertAfter (layout : Layout) (instruction anchor : InstructionId) :
    Except Breach Layout := do
  if layout.contains instruction then
    throw .instructionPlacedTwice
  let place ← layout.places.get anchor
  let places := layout.places.modify anchor fun place => { place with next := some instruction }
  let inserted : Place := ⟨some anchor, place.next, place.block⟩
  match place.next with
  | some next =>
    let places ← places.update next fun place => { place with prev := some instruction }
    return { layout with places := places.insert instruction inserted }
  | none =>
    let blocks ← layout.blocks.update place.block fun ends =>
      { ends with last := some instruction }
    return { layout with blocks := blocks, places := places.insert instruction inserted }

def prepend (layout : Layout) (instruction : InstructionId) (block : BlockId) :
    Except Breach Layout := do
  match ← layout.firstOf block with
  | some first => layout.insertBefore instruction first
  | none => layout.append instruction block

/-- Joins what stands before an instruction that was taken out to what stands after it. -/
def closeBefore (layout : Layout) (place : Place) : Except Breach Layout := do
  match place.prev with
  | some prev =>
    let places ← layout.places.update prev fun other => { other with next := place.next }
    return { layout with places := places }
  | none =>
    let blocks ← layout.blocks.update place.block fun ends => { ends with first := place.next }
    return { layout with blocks := blocks }

/-- Joins what stands after an instruction that was taken out to what stands before it. -/
def closeAfter (layout : Layout) (place : Place) : Except Breach Layout := do
  match place.next with
  | some next =>
    let places ← layout.places.update next fun other => { other with prev := place.prev }
    return { layout with places := places }
  | none =>
    let blocks ← layout.blocks.update place.block fun ends => { ends with last := place.prev }
    return { layout with blocks := blocks }

def remove (layout : Layout) (instruction : InstructionId) : Except Breach Layout := do
  match layout.places.get? instruction with
  | none => throw (.notPlaced instruction)
  | some place =>
    let layout := { layout with places := layout.places.erase instruction }
    let layout ← layout.closeBefore place
    layout.closeAfter place

end Layout

end RegisterChains

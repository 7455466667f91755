/-
This file defines the copies that are known while a block is being worked on. Copies are
listed in classes by the value they hold. A copy is known until the value or the copy is
written, or until the block may be descheduled. The node of a register that holds a known
copy is marked with it, so a cache works together with a chain graph, and takes its marks
back at the end of the block.
-/

import RegisterChains.Chain.Edit

namespace RegisterChains

structure CopyRecord where
  /-- What is held: the operand that the copy was made of. -/
  value : Register
  dest : Register
  node : NodeId
  origin : Option InstructionId
  /-- The place in the block of the last instruction known to read `dest`. -/
  lastUse : UInt32
  /-- Whether `dest` was made for the copy and is not seen outside of the block, so that it
  can be overwritten. -/
  owned : Bool
deriving DecidableEq, Repr

structure CopyCache where
  block : BlockId
  records : Pool .copy CopyRecord
  /-- The copies of each value, oldest first. -/
  classes : Assoc Register (List CopyId)
deriving DecidableEq, Repr

namespace CopyCache

def empty (block : BlockId) : CopyCache := ⟨block, .empty, .empty⟩

def size (cache : CopyCache) : Nat := cache.records.size

def record (cache : CopyCache) (id : CopyId) : Except Breach CopyRecord := cache.records.get id

def classOf (cache : CopyCache) (value : Register) : List CopyId :=
  (cache.classes.get? value).getD []

/-- The copies of a value, oldest first. -/
def holders (cache : CopyCache) (value : Register) : Except Breach (List CopyRecord) :=
  (cache.classOf value).mapM cache.record

/-- The copies that may be overwritten and are not read from the instruction at `current`
on. -/
def deadCopies (cache : CopyCache) (current : UInt32) : List (CopyId × CopyRecord) :=
  cache.records.toList.filter fun (_, record) => record.owned && decide (record.lastUse < current)

def enlist (cache : CopyCache) (value : Register) (id : CopyId) : CopyCache :=
  { cache with classes := cache.classes.insert value (cache.classOf value ++ [id]) }

/-- Strikes a copy off those of its value. A value without copies is not listed. -/
def strike (cache : CopyCache) (value : Register) (id : CopyId) : CopyCache :=
  match cache.classes.get? value with
  | none => cache
  | some ids =>
    let others := ids.filter (· ≠ id)
    { cache with
      classes :=
        if others.isEmpty then cache.classes.erase value else cache.classes.insert value others }

end CopyCache

/-- A cache and the graph whose nodes it marks. -/
structure Tracking where
  cache : CopyCache
  graph : ChainGraph
deriving DecidableEq, Repr

namespace Tracking

/-! ### Looking up copies -/

def recordFor (tracking : Tracking) (register : Register) : Option (CopyId × CopyRecord) :=
  match (tracking.graph.find register).bind tracking.graph.node? with
  | some node =>
    match node.payload with
    | .copy id => (tracking.cache.records.get? id).map fun record => (id, record)
    | .empty | .arrayMember _ => none
  | none => none

/-- What a register is known to hold a copy of. -/
def valueOf (tracking : Tracking) (register : Register) : Option Register :=
  (tracking.recordFor register).map fun (_, record) => record.value

/-! ### Forgetting copies -/

/-- Takes the mark of a copy off its node. -/
def unmark (graph : ChainGraph) (node : NodeId) (id : CopyId) : ChainGraph :=
  graph.update node fun node =>
    if node.payload = .copy id then { node with payload := .empty } else node

def remove (tracking : Tracking) (id : CopyId) : Tracking :=
  match tracking.cache.records.remove id with
  | (none, _) => tracking
  | (some record, records) =>
    { cache := { tracking.cache with records := records }.strike record.value id
      graph := unmark tracking.graph record.node id }

/-- Forgets what a register holds and which registers hold it: it is being written. -/
def noteDef (tracking : Tracking) (register : Register) : Tracking :=
  let tracking := (tracking.cache.classOf register).foldl remove tracking
  match tracking.recordFor register with
  | some (id, _) => tracking.remove id
  | none => tracking

def removeAll (tracking : Tracking) : Tracking :=
  tracking.cache.records.keys.foldl remove tracking

/-- Forgets every copy, after which no value may be listed. -/
def clear : Step Tracking Unit := do
  modify removeAll
  if !(← get).cache.classes.isEmpty then
    Step.breach .leftoverClass

def finish : Step Tracking Unit := do
  let cache := (← get).cache
  Step.report (.copiesDropped cache.size cache.block)
  clear

/-! ### Learning of copies -/

def noteUse (tracking : Tracking) (register : Register) (place : UInt32) : Tracking :=
  match tracking.recordFor register with
  | none => tracking
  | some (id, _) =>
    let records := tracking.cache.records.modify id fun record =>
      { record with lastUse := max record.lastUse place }
    { tracking with cache := { tracking.cache with records := records } }

def remember (tracking : Tracking) (record : CopyRecord) : CopyId × Tracking :=
  let (id, records) := tracking.cache.records.insert record
  (id,
    { cache := { tracking.cache with records := records }.enlist record.value id
      graph := tracking.graph.update record.node fun node => { node with payload := .copy id } })

def onGraph {α : Type} (step : Step ChainGraph α) : Step Tracking α :=
  step.within (·.graph) fun tracking graph => { tracking with graph := graph }

/-- Remembers that `dest` now holds `value`, as of an instruction at a place in the block.
What `dest` held before is forgotten. Members of arrays are never remembered, because they
can be read and written through an index. -/
def recordCopy (value dest : Register) (origin : Option InstructionId) (place : UInt32)
    (owned : Bool) : Step Tracking (Option CopyId) := do
  if value = dest || !dest.isVirtual then
    return none
  let node ← onGraph (ChainGraph.create dest)
  match (← (← get).graph.node node).payload with
  | .arrayMember _ => return none
  | .copy old => modify (·.remove old)
  | .empty => pure ()
  let id ← modifyGet (·.remember ⟨value, dest, node, origin, place, owned⟩)
  Step.report (.copyKnown dest value (← get).cache.block)
  return some id

end Tracking

end RegisterChains

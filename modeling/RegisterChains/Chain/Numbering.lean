/-
This file defines the finished constraints, as they are handed to a physical allocator. The
chains no longer change. Each one is given a base number, and its members take the numbers
from there on, in order.
-/

import RegisterChains.Chain.Edit

namespace RegisterChains

structure Numbering where
  graph : ChainGraph
  assigned : Assoc NodeId UInt32
  verify : Bool
deriving DecidableEq, Repr

namespace Numbering

def ofGraph (graph : ChainGraph) (verify : Bool) : Numbering := ⟨graph, .empty, verify⟩

def checkMember (head : NodeId) (base : UInt32) (node : Node) (index : Nat) :
    Except Inconsistency Unit := do
  if UInt32.size ≤ base.toNat + index then
    throw (.numberingOverflow head base)
  let number := (base.toNat + index).toUInt32
  if !node.parity.allows number then
    throw (.numberParity node.register node.parity number)
  match node.pin.bind (·.physical) with
  | some physical =>
    if physical ≠ number then
      throw (.numberPinned node.register physical number)
  | none => return ()

def checkMembers (graph : ChainGraph) (head : NodeId) (base : UInt32)
    (members : List (NodeId × Nat)) : Except Inconsistency Unit :=
  members.forM fun (id, index) =>
    match graph.node? id with
    | some node => checkMember head base node index
    | none => .ok ()

def check (numbering : Numbering) (head : NodeId) (base : UInt32) :
    Except Inconsistency Unit := do
  let graph := numbering.graph
  if ((graph.node? head).bind (·.prev)).isSome then
    throw (.notHead head)
  let bank := graph.bankOf head
  let members := graph.chain head
  if graph.limit bank < members.length then
    throw (.numberingOverlong head members.length bank (graph.limit bank))
  checkMembers graph head base members.zipIdx

def record (numbering : Numbering) (head : NodeId) (base : UInt32) : Numbering :=
  { numbering with
    assigned := (numbering.graph.chain head).zipIdx.foldl
      (fun assigned (id, index) => assigned.insert id (base + index.toUInt32))
      numbering.assigned }

/-- Numbers the chain at `head` from `base` on. A verified assignment has to meet the
constraints. -/
def assign (head : NodeId) (base : UInt32) : Step Numbering Unit := do
  let numbering ← get
  if numbering.verify then
    if let .error cause := numbering.check head base then
      Step.report (.assignmentInvalid (.internal cause))
      Step.breach (.invalidAssignment (.internal cause))
  set (numbering.record head base)

def numberOf (numbering : Numbering) (register : Register) : Option UInt32 :=
  (numbering.graph.find register).bind numbering.assigned.get?

end Numbering

end RegisterChains

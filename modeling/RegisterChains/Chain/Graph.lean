/-
This file defines chain graphs. A graph holds a node for each register that a constraint
concerns, the register each node stands for, and the nodes at which chains begin. The
chains partition the nodes, and no walk along a chain is longer than there are nodes; so
the walks here are bounded by the number of nodes.
-/

import RegisterChains.Chain.Node
import RegisterChains.Store.Assoc
import RegisterChains.Store.Pool
import RegisterChains.Target

namespace RegisterChains

structure ChainGraph where
  nodes : Pool .node Node
  byRegister : Assoc Register NodeId
  /-- The nodes without a predecessor, in the order of keys. -/
  heads : List NodeId
  limits : BankLimits
deriving DecidableEq, Repr

/-- A run of linked nodes, as seen from one of them. -/
structure Segment where
  head : NodeId
  /-- How far from `head` the node is. -/
  position : Nat
  members : List NodeId
  pinnedBank : Option Bank
deriving DecidableEq, Repr

namespace Segment

def length (segment : Segment) : Nat := segment.members.length

end Segment

namespace ChainGraph

def empty (limits : BankLimits) : ChainGraph := ⟨.empty, .empty, [], limits⟩

/-! ### Reading nodes -/

def size (graph : ChainGraph) : Nat := graph.nodes.size

def node? (graph : ChainGraph) (id : NodeId) : Option Node := graph.nodes.get? id

def node (graph : ChainGraph) (id : NodeId) : Except Breach Node := graph.nodes.get id

def find (graph : ChainGraph) (register : Register) : Option NodeId :=
  graph.byRegister.get? register

def limit (graph : ChainGraph) (bank : Bank) : Nat := graph.limits.get bank

def pinOf (graph : ChainGraph) (id : NodeId) : Option Pin := (graph.node? id).bind (·.pin)

/-- Whether the link after a node is only a preference. -/
def optionalAfter (graph : ChainGraph) (id : NodeId) : Bool :=
  (graph.node? id).any (·.optionalLink)

/-! ### Walking along chains -/

/-- Walks back from a node to where its run begins, counting the steps. -/
def backFrom (graph : ChainGraph) (mandatoryOnly : Bool) :
    Nat → NodeId → Nat → NodeId × Nat
  | 0, id, position => (id, position)
  | budget + 1, id, position =>
    match (graph.node? id).bind (·.prev) with
    | none => (id, position)
    | some prev =>
      if (graph.node? prev).any (·.leadsOn mandatoryOnly) then
        graph.backFrom mandatoryOnly budget prev (position + 1)
      else (id, position)

def membersFrom (graph : ChainGraph) (mandatoryOnly : Bool) : Nat → NodeId → List NodeId
  | 0, id => [id]
  | budget + 1, id =>
    match graph.node? id with
    | none => [id]
    | some node =>
      match node.next with
      | none => [id]
      | some next =>
        if node.leadsOn mandatoryOnly then
          id :: graph.membersFrom mandatoryOnly budget next
        else [id]

def pinnedBankOf (graph : ChainGraph) (members : List NodeId) : Option Bank :=
  members.findSome? fun id => (graph.pinOf id).map (·.bank)

/-- The run a node is in. With `mandatoryOnly`, optional links count as cut. -/
def segment (graph : ChainGraph) (id : NodeId) (mandatoryOnly : Bool) : Segment :=
  let (head, position) := graph.backFrom mandatoryOnly (graph.size + 1) id 0
  let members := graph.membersFrom mandatoryOnly graph.size head
  ⟨head, position, members, graph.pinnedBankOf members⟩

def chain (graph : ChainGraph) (id : NodeId) : List NodeId :=
  graph.membersFrom false graph.size id

def headOf (graph : ChainGraph) (id : NodeId) : NodeId := (graph.segment id false).head

/-- The bank that the chain of a node lives in. A chain without a pin lives among the
temporaries. -/
def bankOf (graph : ChainGraph) (id : NodeId) : Bank :=
  (graph.segment id false).pinnedBank.getD .temp

def segmentAt (graph : ChainGraph) (id : NodeId) (mandatoryOnly : Bool) :
    Except Breach Segment := do
  let _ ← graph.node id
  return graph.segment id mandatoryOnly

def registersAt (graph : ChainGraph) (id : NodeId) : Except Breach (List Register) := do
  let _ ← graph.node id
  return (graph.chain id).filterMap fun member => (graph.node? member).map (·.register)

/-! ### Changing nodes -/

def update (graph : ChainGraph) (id : NodeId) (f : Node → Node) : ChainGraph :=
  { graph with nodes := graph.nodes.modify id f }

def insertKey (key : NodeId) : List NodeId → List NodeId
  | [] => [key]
  | head :: rest =>
    if key.index < head.index then key :: head :: rest
    else if key = head then head :: rest
    else head :: insertKey key rest

def markHead (graph : ChainGraph) (id : NodeId) : ChainGraph :=
  { graph with heads := insertKey id graph.heads }

def unmarkHead (graph : ChainGraph) (id : NodeId) : ChainGraph :=
  { graph with heads := graph.heads.filter (· ≠ id) }

end ChainGraph

end RegisterChains

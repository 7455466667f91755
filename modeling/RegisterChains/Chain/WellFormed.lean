/-
This file checks the structure of a chain graph: links point both ways, the listed heads
are the nodes without a predecessor, parities alternate along links, linked pins can be
adjacent, and no chain runs in a circle or is longer than its bank allows. The first
contradiction found is reported.
-/

import RegisterChains.Chain.Graph

namespace RegisterChains

namespace ChainGraph

def checkNext (graph : ChainGraph) (id : NodeId) (node : Node) : Except Inconsistency Unit := do
  let some next := node.next | return ()
  let some successor := graph.node? next | throw (.successorStray id)
  if successor.prev ≠ some id then
    throw (.successorStray id)
  if !node.parity.isAny && !successor.parity.isAny &&
      successor.parity ≠ node.parity.complement then
    throw (.parityRepeats node.register successor.register)
  match node.pin, successor.pin with
  | some first, some second =>
    if !first.canPrecede second then
      throw (.pinsApart node.register successor.register)
  | _, _ => return ()

def checkPrev (graph : ChainGraph) (id : NodeId) (node : Node) : Except Inconsistency Unit := do
  let some prev := node.prev | return ()
  if (graph.node? prev).bind (·.next) ≠ some id then
    throw (.predecessorStray id)

def checkNode (graph : ChainGraph) (id : NodeId) (node : Node) : Except Inconsistency Unit := do
  if graph.find node.register ≠ some id then
    throw (.unregistered id node.register)
  graph.checkNext id node
  graph.checkPrev id node
  if node.prev.isNone ≠ graph.heads.contains id then
    throw (.headSet id)

def checkChain (graph : ChainGraph) (head : NodeId) : Except Inconsistency Unit := do
  let members := graph.chain head
  if graph.size < members.length then
    throw (.cycle head)
  let limit := graph.limit ((graph.pinnedBankOf members).getD .temp)
  if limit < members.length then
    throw (.overlong head members.length limit)

def check (graph : ChainGraph) : Except Inconsistency Unit := do
  graph.nodes.toList.forM fun (id, node) => graph.checkNode id node
  graph.heads.forM graph.checkChain

end ChainGraph

end RegisterChains

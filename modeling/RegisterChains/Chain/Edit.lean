/-
This file defines the changes to a chain graph: giving a register a node, linking two
registers, cutting a link, demanding a parity, committing a run, and releasing a register.
A link is refused, and changes nothing, when it would break a chain. A mandatory link may
displace optional ones: when it is made, every optional link of the two chains it joins is
cut.
-/

import RegisterChains.Chain.Graph
import RegisterChains.Step

namespace RegisterChains

structure Edit (α : Type) where
  result : α
  graph : ChainGraph
  notes : List Note

namespace ChainGraph

def apply {α : Type} (change : ChainGraph → Edit α) : Step ChainGraph α := fun graph =>
  let edit := change graph
  ⟨.ok edit.result, edit.graph, edit.notes⟩

/-! ### Nodes for registers -/

def addNode (graph : ChainGraph) (register : Register) : Edit NodeId :=
  let (id, nodes) := graph.nodes.insert (.unconstrained register)
  let graph := { graph with nodes := nodes, byRegister := graph.byRegister.insert register id }
  ⟨id, graph.markHead id, [.created id register]⟩

/-- The node of a register, which is added if there is none yet. -/
def ensure (graph : ChainGraph) (register : Register) : Edit NodeId :=
  match graph.find register with
  | some id => ⟨id, graph, []⟩
  | none => graph.addNode register

def create (register : Register) : Step ChainGraph NodeId := do
  if register.isVirtual then apply (·.ensure register)
  else Step.breach (.notVirtual register)

/-! ### Cutting links -/

def cutNotes (graph : ChainGraph) (first second : NodeId) : List Note :=
  match graph.node? first, graph.node? second with
  | some before, some after => [.unlinked before.register after.register]
  | _, _ => []

/-- Cuts the link after a node. Tells whether there was one. -/
def unlink (graph : ChainGraph) (id : NodeId) : Edit Bool :=
  match (graph.node? id).bind (·.next) with
  | none => ⟨false, graph, []⟩
  | some next =>
    let cut := graph.update id fun node =>
      { node with next := none, optionalLink := false, instructionLinked := false }
    let cut := cut.update next fun node => { node with prev := none }
    ⟨true, cut.markHead next, graph.cutNotes id next⟩

/-- Cuts the link before a node. Tells whether there was one. -/
def unlinkPrev (graph : ChainGraph) (id : NodeId) : Edit Bool :=
  match (graph.node? id).bind (·.prev) with
  | none => ⟨false, graph, []⟩
  | some prev => graph.unlink prev

def cutAfter (id : NodeId) : Step ChainGraph Bool := do
  let _ ← (← get).node id
  apply (·.unlink id)

def cutBefore (id : NodeId) : Step ChainGraph Bool := do
  let _ ← (← get).node id
  apply (·.unlinkPrev id)

def unlinkAll (graph : ChainGraph) : List NodeId → Edit Unit
  | [] => ⟨(), graph, []⟩
  | id :: rest =>
    let first := graph.unlink id
    let others := first.graph.unlinkAll rest
    ⟨(), others.graph, first.notes ++ others.notes⟩

/-- Cuts every optional link of the chain a node is in. -/
def dropOptional (graph : ChainGraph) (id : NodeId) : Edit Unit :=
  graph.unlinkAll ((graph.chain (graph.headOf id)).filter graph.optionalAfter)

def dropOptionalOf (graph : ChainGraph) : Option NodeId → Edit Unit
  | some id => graph.dropOptional id
  | none => ⟨(), graph, []⟩

/-! ### Parity -/

def alternate (graph : ChainGraph) (base : Parity) (mandatory : Bool) (members : List NodeId) :
    ChainGraph :=
  members.zipIdx.foldl (fun graph (id, index) =>
    graph.update id fun node =>
      { node with parity := base.atOffset index, parityMandatory := mandatory }) graph

/-- Spreads the parity of a node over its chain. If the parity is mandatory anywhere on the
chain, it is mandatory everywhere. -/
def spreadParity (graph : ChainGraph) (id : NodeId) : ChainGraph :=
  match graph.node? id with
  | none => graph
  | some node =>
    if node.parity.isAny then graph
    else
      let segment := graph.segment id false
      let members := graph.chain segment.head
      let mandatory := members.any fun member =>
        (graph.node? member).any (·.parityMandatory)
      graph.alternate (node.parity.atOffset segment.position) mandatory members

/-- Demands a parity of a node, and with it of its whole chain. Fails if the node already
has the other one. -/
def setParity (graph : ChainGraph) (id : NodeId) (parity : Parity) (mandatory : Bool) :
    Bool × ChainGraph :=
  match graph.node? id with
  | none => (parity.isAny, graph)
  | some node =>
    if parity.isAny then (true, graph)
    else if !node.parity.isAny && node.parity ≠ parity then (false, graph)
    else
      let graph := graph.update id fun node =>
        { node with parity := parity, parityMandatory := node.parityMandatory || mandatory }
      (true, graph.spreadParity id)

def demandParity (id : NodeId) (parity : Parity) (mandatory : Bool) : Step ChainGraph Bool := do
  if parity.isAny then
    return true
  let _ ← (← get).node id
  modifyGet fun graph => graph.setParity id parity mandatory

/-! ### Linking -/

/-- Whether the pins and parities of two registers allow the second to follow the first. -/
def agrees (first second : Node) : Bool :=
  (match first.pin, second.pin with
    | some low, some high => low.canPrecede high
    | _, _ => true) &&
  (first.parity.isAny || second.parity.isAny || second.parity == first.parity.complement)

/-- Whether nothing follows a node, or only what a mandatory link may displace. -/
def openAfter (graph : ChainGraph) (mandatory : Bool) (id : NodeId) : Bool :=
  match graph.node? id with
  | none => true
  | some node => node.next.isNone || (mandatory && node.optionalLink)

/-- Whether nothing precedes a node, or only what a mandatory link may displace. -/
def openBefore (graph : ChainGraph) (mandatory : Bool) (id : NodeId) : Bool :=
  match (graph.node? id).bind (·.prev) with
  | none => true
  | some prev => mandatory && graph.optionalAfter prev

/-- Whether two runs can be joined: they are different runs, they are not pinned to
different banks, and what is left of them when the displaced links are cut fits the bank. -/
def runsJoin (graph : ChainGraph) (before after : Option Segment) : Bool :=
  let apart := match before, after with
    | some first, some second => first.head ≠ second.head
    | _, _ => true
  let firstBank := before.bind (·.pinnedBank)
  let secondBank := after.bind (·.pinnedBank)
  let sameBank := match firstBank, secondBank with
    | some first, some second => first == second
    | _, _ => true
  let bank := (firstBank <|> secondBank).getD .temp
  let front := before.elim 1 fun segment => segment.position + 1
  let back := after.elim 1 fun segment => segment.length - segment.position
  apart && sameBank && decide (front + back ≤ graph.limit bank)

/-- Whether the second of two registers can be linked behind the first. A register without
a node has no constraints. -/
def canLink (graph : ChainGraph) (first second : Option NodeId) (mandatory : Bool) : Bool :=
  (match first.bind graph.node?, second.bind graph.node? with
    | some before, some after => agrees before after
    | _, _ => true) &&
  first.all (graph.openAfter mandatory) &&
  second.all (graph.openBefore mandatory) &&
  graph.runsJoin (first.map (graph.segment · mandatory)) (second.map (graph.segment · mandatory))

/-- Strengthens the link after a node. An optional link that becomes mandatory cuts the
other optional links of its chain. -/
def strengthen (graph : ChainGraph) (id : NodeId) (mandatory viaInstruction : Bool) :
    Edit Unit :=
  let graph :=
    if viaInstruction then graph.update id fun node => { node with instructionLinked := true }
    else graph
  if mandatory && graph.optionalAfter id then
    (graph.update id fun node => { node with optionalLink := false }).dropOptional id
  else ⟨(), graph, []⟩

def join (graph : ChainGraph) (first second : NodeId) (mandatory viaInstruction : Bool) :
    ChainGraph :=
  let graph := graph.update first fun node =>
    { node with
      next := some second
      optionalLink := !mandatory
      instructionLinked := viaInstruction }
  let graph := graph.update second fun node => { node with prev := some first }
  let graph := graph.unmarkHead second
  let source := if (graph.node? first).any (!·.parity.isAny) then first else second
  graph.spreadParity source

def connect (graph : ChainGraph) (first : Register) (firstNode : Option NodeId)
    (second : Register) (secondNode : Option NodeId) (mandatory viaInstruction : Bool) :
    Edit Bool :=
  let cutFirst := if mandatory then graph.dropOptionalOf firstNode else ⟨(), graph, []⟩
  let cutSecond :=
    if mandatory then cutFirst.graph.dropOptionalOf secondNode else ⟨(), cutFirst.graph, []⟩
  let before := cutSecond.graph.ensure first
  let after := before.graph.ensure second
  ⟨true, after.graph.join before.result after.result mandatory viaInstruction,
    cutFirst.notes ++ cutSecond.notes ++ before.notes ++ after.notes ++
      [.linked first second mandatory]⟩

def linkNodes (graph : ChainGraph) (first : Register) (firstNode : Option NodeId)
    (second : Register) (secondNode : Option NodeId) (mandatory viaInstruction : Bool) :
    Edit Bool :=
  let adjacent := match firstNode, secondNode with
    | some before, some after =>
      if (graph.node? before).bind (·.next) = some after then some before else none
    | _, _ => none
  match adjacent with
  | some before =>
    let stronger := graph.strengthen before mandatory viaInstruction
    ⟨true, stronger.graph, stronger.notes⟩
  | none =>
    if graph.canLink firstNode secondNode mandatory then
      graph.connect first firstNode second secondNode mandatory viaInstruction
    else ⟨false, graph, [.linkRefused first second]⟩

def linkable (first second : Register) : Bool :=
  first ≠ second && first.isVirtual && second.isVirtual

/-- Requires `second` to have the hardware number directly after `first`. Tells whether that
is possible. -/
def link (graph : ChainGraph) (first second : Register) (mandatory viaInstruction : Bool) :
    Edit Bool :=
  if linkable first second then
    graph.linkNodes first (graph.find first) second (graph.find second) mandatory viaInstruction
  else ⟨false, graph, []⟩

def checkHint (graph : ChainGraph) (register : Register) : Option NodeId → Except Breach Unit
  | none => .ok ()
  | some id => do
    if (← graph.node id).register ≠ register then
      throw .strayNode

def linkHinted (first : Register) (firstHint : Option NodeId) (second : Register)
    (secondHint : Option NodeId) (mandatory viaInstruction : Bool) : Step ChainGraph Bool := do
  if !linkable first second then
    return false
  let graph ← get
  let firstNode := firstHint <|> graph.find first
  let secondNode := secondHint <|> graph.find second
  graph.checkHint first firstNode
  graph.checkHint second secondNode
  apply fun graph =>
    graph.linkNodes first firstNode second secondNode mandatory viaInstruction

/-! ### Committing runs -/

def commitLinks (viaInstruction : Bool) : List Register → Step ChainGraph Unit
  | first :: second :: rest => do
    if ← apply (·.link first second true viaInstruction) then
      commitLinks viaInstruction (second :: rest)
    else
      Step.contradict (.commitLink second first)
  | _ => return ()

def commitParity (registers : List Register) (parity : Parity) : Step ChainGraph Unit := do
  match registers with
  | [] => return ()
  | first :: _ =>
    if parity.isAny then
      return ()
    let id ← create first
    if !(← demandParity id parity true) then
      Step.contradict (.commitParity first parity)

/-- Commits a run that was judged to fit: links each register to the next one and demands
the parity of the first. A run of hardware registers is consecutive already, and there is
nothing to record about it. -/
def commit (registers : List Register) (parity : Parity) (viaInstruction : Bool) :
    Step ChainGraph Unit := do
  if registers.all (·.isVirtual) then
    commitLinks viaInstruction registers
    commitParity registers parity
  else if registers.all (·.hardwareBank.isSome) then
    return ()
  else
    Step.breach .mixedRun

/-! ### Releasing registers -/

def dropNode (graph : ChainGraph) (id : NodeId) (register : Register) : ChainGraph :=
  let graph := graph.unmarkHead id
  { graph with
    byRegister := graph.byRegister.erase register
    nodes := (graph.nodes.remove id).2 }

/-- Releases a register from its constraints. Its neighbours become the ends of the two
chains left behind. Tells whether the register had a node. -/
def release (register : Register) : Step ChainGraph Bool := do
  let graph ← get
  match graph.find register with
  | none => return false
  | some id =>
    if let .copy _ := (← graph.node id).payload then
      Step.breach (.releasedCopy register)
    let _ ← apply (·.unlinkPrev id)
    let _ ← apply (·.unlink id)
    modify (·.dropNode id register)
    Step.report (.released id register)
    return true

end ChainGraph

end RegisterChains

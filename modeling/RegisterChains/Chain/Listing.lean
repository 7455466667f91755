/-
This file prints the chains of a graph, one line per chain. Each node is shown with its key,
its register, the parity it needs, its pin and what it carries, and each link with how
binding it is.
-/

import RegisterChains.Chain.Graph

namespace RegisterChains

/-- A pin as it is listed: the descriptor and member, the bank, and the hardware number if
there is one. -/
def Pin.text (pin : Pin) : String :=
  let number := match pin.physical with
    | some physical => ":" ++ toString physical.toNat
    | none => ""
  "[b" ++ toString pin.binding.index ++ "." ++ toString pin.offset.toNat ++ "@" ++
    pin.bank.label ++ number ++ "]"

def Payload.text : Payload → String
  | empty => ""
  | copy id => "\x7bc" ++ toString id.index ++ "\x7d"
  | arrayMember binding => "\x7ba" ++ toString binding.index ++ "\x7d"

namespace Node

def parityText (node : Node) : String :=
  let letter := match node.parity with
    | .any => ""
    | .even => "e"
    | .odd => "o"
  letter ++ (if node.parityMandatory then "!" else "")

def text (node : Node) : String :=
  node.register.text ++ node.parityText ++ (node.pin.map Pin.text).getD "" ++
    node.payload.text

def linkText (node : Node) : String :=
  if node.next.isNone then ""
  else
    " " ++ (if node.optionalLink then "~" else "-") ++
      (if node.instructionLinked then "i " else " ")

end Node

namespace ChainGraph

def chainText (graph : ChainGraph) (head : NodeId) : String :=
  String.join ((graph.chain head).filterMap fun id =>
    (graph.node? id).map fun node => toString id.index ++ ":" ++ node.text ++ node.linkText)

def listing (graph : ChainGraph) : List String := graph.heads.map graph.chainText

end ChainGraph

end RegisterChains

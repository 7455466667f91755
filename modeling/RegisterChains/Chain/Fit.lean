/-
This file decides whether a candidate run fits the constraints: whether its registers could
be made consecutive, in order, with the first one of a given parity. The answer is what the
run would come to, or the first conflict found. Candidates that name hardware registers are
judged by their numbers alone.
-/

import RegisterChains.Chain.Edit

namespace RegisterChains

structure Fit where
  existing : List (Option NodeId)
  /-- What the first register needs, by the request and by the chains. -/
  parity : Parity
  bank : Bank
deriving DecidableEq, Repr

namespace ChainGraph

/-! ### Hardware runs -/

/-- Whether a position is the register `index` places after `first`. -/
def ascends (first : Register) (index : Nat) : Slot → Bool
  | .register operand =>
    operand.kind == first.kind && operand.number.toNat == first.number.toNat + index
  | _ => false

/-- Judges a candidate that names a hardware register: the registers have to ascend in one
bank from the first one. -/
def fitNumbered (graph : ChainGraph) (slots : List Slot) (parity : Parity) :
    Except Conflict Fit :=
  match slots.head? with
  | some (.register first) =>
    match first.hardwareBank with
    | none => .error (.numbering 0)
    | some bank =>
      match slots.zipIdx.find? fun (slot, index) => !ascends first index slot with
      | some (_, index) => .error (.numbering index)
      | none =>
        if !parity.allows first.number then .error (.parity 0)
        else if graph.limit bank < slots.length then
          .error (.tooLong slots.length (graph.limit bank))
        else .ok ⟨slots.map fun _ => none, parity, bank⟩
  | _ => .error (.numbering 0)

/-! ### Virtual runs -/

structure Member where
  index : Nat
  id : NodeId
  node : Node

def existingNodes (graph : ChainGraph) (slots : List Slot) : List (Option NodeId) :=
  slots.map fun
    | .register operand => graph.find operand
    | .fresh | .undecided => none

def membersOf (graph : ChainGraph) (existing : List (Option NodeId)) : List Member :=
  existing.zipIdx.filterMap fun (found, index) =>
    found.bind fun id => (graph.node? id).map fun node => ⟨index, id, node⟩

/-- The first position that is an immediate, or that repeats an earlier register. -/
def operandConflict (slots : List Slot) : Option Conflict :=
  slots.zipIdx.findSome? fun (slot, index) =>
    match slot with
    | .register operand =>
      if operand.isImmediate then some (.notGroupable index)
      else if (slots.take index).contains slot then some (.duplicate index)
      else none
    | .fresh | .undecided => none

/-- What position 0 needs. Every member with a parity implies one for position 0, and all
of them have to agree with the request and with each other. -/
def baseParity (members : List Member) (requested : Parity) : Except Conflict Parity :=
  members.foldlM (fun base member =>
    let implied := member.node.parity.atOffset member.index
    if member.node.parity.isAny then .ok base
    else if base.isAny then .ok implied
    else if base ≠ implied then .error (.parity member.index)
    else .ok base) requested

/-- The number that a member with a given number implies for position 0. All members have to
imply the same one, and it must not lie below zero. -/
def impliedNumber (base : Option Nat) (member : Member) (physical : UInt32) :
    Except Conflict (Option Nat) :=
  if physical.toNat < member.index then .error (.pinned member.index)
  else
    let implied := physical.toNat - member.index
    match base with
    | some number => if number ≠ implied then .error (.pinned member.index) else .ok base
    | none => .ok (some implied)

/-- The number that the pinned members imply for position 0. A pinned member also has to be
able to follow the member before it, if that one is pinned as well. -/
def baseNumber (graph : ChainGraph) (existing : List (Option NodeId)) (members : List Member) :
    Except Conflict (Option Nat) :=
  members.foldlM (fun base member =>
    match member.node.pin with
    | none => .ok base
    | some pin => do
      let base ← match pin.physical with
        | some physical => impliedNumber base member physical
        | none => .ok base
      let before :=
        if member.index = 0 then none
        else (existing[member.index - 1]?).join.bind graph.pinOf
      if before.any fun prev => !prev.canPrecede pin then
        throw (.pinned member.index)
      return base) none

def decided (slots : List Slot) (index : Nat) : Bool :=
  (slots[index]?).any (· ≠ .undecided)

/-- The first member that is required next to a register other than the one beside it in
the candidate. -/
def neighbourConflict (graph : ChainGraph) (slots : List Slot) (existing : List (Option NodeId))
    (members : List Member) : Option Conflict :=
  members.findSome? fun member =>
    let index := member.index
    let wrongBefore := member.node.prev.any fun prev =>
      decide (0 < index) && decided slots (index - 1) && !graph.optionalAfter prev &&
        (existing[index - 1]?).join ≠ some prev
    let wrongAfter := member.node.next.any fun next =>
      decide (index + 1 < slots.length) && decided slots (index + 1) &&
        !member.node.optionalLink && (existing[index + 1]?).join ≠ some next
    if wrongBefore || wrongAfter then some (.neighbour index) else none

/-- The bank and the extent of the chains that a candidate touches, in positions of the
candidate, with the position at which each chain begins. -/
structure Extent where
  bank : Option Bank
  starts : Assoc NodeId Int
  low : Int
  high : Int

/-- Adds the chain of a member to an extent. Chains are measured without optional links,
since committing the candidate cuts those. -/
def extend (graph : ChainGraph) (extent : Extent) (member : Member) : Except Conflict Extent := do
  let segment := graph.segment member.id true
  let start : Int := (member.index : Int) - (segment.position : Int)
  let starts ← match extent.starts.get? segment.head with
    | some known =>
      if known ≠ start then throw (.position member.index) else pure extent.starts
    | none => pure (extent.starts.insert segment.head start)
  let bank ← match extent.bank, segment.pinnedBank with
    | some known, some bank =>
      if known ≠ bank then throw (.bank member.index) else pure (some known)
    | none, found => pure found
    | known, none => pure known
  return ⟨bank, starts, min extent.low start, max extent.high (start + segment.length)⟩

def fitVirtual (graph : ChainGraph) (slots : List Slot) (parity : Parity) :
    Except Conflict Fit := do
  if let some conflict := operandConflict slots then
    throw conflict
  let existing := graph.existingNodes slots
  let members := graph.membersOf existing
  let base ← baseParity members parity
  let _ ← graph.baseNumber existing members
  if let some conflict := graph.neighbourConflict slots existing members then
    throw conflict
  let extent ← members.foldlM graph.extend ⟨none, .empty, 0, slots.length⟩
  let bank := extent.bank.getD .temp
  let length := (extent.high - extent.low).toNat
  if graph.limit bank < length then
    throw (.tooLong length (graph.limit bank))
  return ⟨existing, base, bank⟩

/-! ### Candidates -/

def isNumbered : Slot → Bool
  | .register operand => operand.hardwareBank.isSome
  | .fresh | .undecided => false

/-- Judges a candidate: whether its positions could be made consecutive, in order, with the
first one of the given parity. -/
def fit (graph : ChainGraph) (slots : List Slot) (parity : Parity) : Except Conflict Fit :=
  if slots.any isNumbered then graph.fitNumbered slots parity
  else graph.fitVirtual slots parity

def fitOperands (graph : ChainGraph) (operands : List Register) (parity : Parity) :
    Except Conflict Fit :=
  graph.fit (operands.map .register) parity

def verdictNotes (slots : List Slot) : Except Conflict Fit → List Note
  | .ok _ => []
  | .error conflict => [.rejected slots conflict]

def judge (slots : List Slot) (parity : Parity) : Step ChainGraph (Except Conflict Fit) :=
  fun graph =>
    let verdict := graph.fit slots parity
    ⟨.ok verdict, graph, verdictNotes slots verdict⟩

def judgeOperands (operands : List Register) (parity : Parity) :
    Step ChainGraph (Except Conflict Fit) :=
  judge (operands.map .register) parity

end ChainGraph

end RegisterChains

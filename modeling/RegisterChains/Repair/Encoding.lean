/-
This file defines the repairs that need no copies: reading the run in another order,
reading constants from consecutive constant registers, and using a cheaper encoding.
-/

import RegisterChains.Repair.Walk

namespace RegisterChains

namespace Walk

/-! ### Another order -/

/-- Where each operand stands in its chain, if all of them are on one chain of mandatory
links. The chain found so far is named by its head. -/
def placesOnChain (graph : ChainGraph) :
    Option NodeId → List (Register × Nat) → Option (List (Nat × Nat))
  | _, [] => some []
  | head, (register, index) :: rest => do
    let id ← graph.find register
    let segment := graph.segment id true
    if head.any (· ≠ segment.head) then
      none
    else
      let others ← placesOnChain graph (some segment.head) rest
      return (segment.position, index) :: others

def contiguous : List Nat → Bool
  | first :: second :: rest => second == first + 1 && contiguous (second :: rest)
  | _ => true

/-- The order of operands by their places on one chain, if that is a run and not the order
they are in. -/
def chainOrder (graph : ChainGraph) (operands : List Register) : Option (List Nat) := do
  let places ← placesOnChain graph none operands.zipIdx
  let sorted := places.mergeSort fun first second =>
    decide (first.1 < second.1 ∨ (first.1 = second.1 ∧ first.2 ≤ second.2))
  let order := sorted.map (·.2)
  if contiguous (sorted.map (·.1)) && order ≠ List.range operands.length then
    return order
  else
    none

/-- Reads a run in the order its operands have on their chain. Tells whether that is
possible. -/
def tryReorder (setting : Setting) (key : InstructionId) (run : OperandRun)
    (operands : List Register) : Step Walk Bool := do
  let some order := chainOrder (← get).graph operands | return false
  let reordered := order.filterMap (operands[·]?)
  let .ok fit ← judge reordered run.parity | return false
  let instruction ← instruction key
  if !setting.target.acceptsOrder instruction run order then
    return false
  let some changed ← setting.target.reorder instruction run order | return false
  setInstruction key changed
  commit reordered fit.parity
  return true

/-! ### Constants -/

def knownValue (target : Target) (operand : Register) : Option UInt32 :=
  match operand.kind with
  | .immediate => some operand.number
  | .constant => target.constantValue operand.number
  | .temp | .primary | .output => none

def constantsFrom (start : UInt32) (count : Nat) : Except Breach (List Register) :=
  if start.toNat + count ≤ UInt32.size then
    .ok ((List.range count).map fun index => .constant (start + index.toUInt32))
  else .error .overflow

/-- Reads a run of known values from consecutive constant registers. Tells whether that is
possible. -/
def tryConstants (setting : Setting) (key : InstructionId) (run : OperandRun)
    (operands : List Register) : Step Walk Bool := do
  if run.side ≠ .source then
    return false
  let target := setting.target
  let some values := operands.mapM (knownValue target) | return false
  let some start := target.constantRun values run.parity | return false
  let instruction ← instruction key
  let readable := (List.range operands.length).all fun index =>
    target.acceptsBank instruction .source (run.start + index) .constant .direct
  let constants ← constantsFrom start operands.length
  if !readable then
    return false
  let .ok _ ← judge constants run.parity | return false
  setInstruction key (← run.replace instruction constants)
  return true

/-! ### Cheaper encodings -/

/-- Makes a note that an instruction was narrowed. The listing is only made if it will be
shown. -/
def reportNarrowed (setting : Setting) (key : InstructionId) (narrowed : Instruction) :
    Step Walk Unit := do
  if setting.shown.any (·.shows .debug) then
    Step.report (.narrowed key (← narrowed.text))

/-- Whether a narrowed instruction has a smaller run on the side of the one that stands in
the way. -/
def isNarrower (target : Target) (run : OperandRun) (narrowed : Instruction) : Bool :=
  (target.runs narrowed).any fun other =>
    other.side == run.side && decide (1 ≤ other.count) && decide (other.count < run.count)

def applyRelaxation (setting : Setting) (key : InstructionId) (run : OperandRun) :
    Relaxation → Step Walk (Option RunFix)
  | .narrow narrowed => do
    if !isNarrower setting.target run narrowed then
      return none
    reportNarrowed setting key narrowed
    setInstruction key narrowed
    return some .narrowed
  | .expand sequence => do
    let next ← (← get).program.layout.nextOf key
    let inserted ← onProgram (Program.replace key sequence)
    Step.report (.expanded key inserted.length)
    return some (.replaced (inserted.head? <|> next))

/-- Uses a cheaper encoding, if there is one that adds no more instructions than copies
would. -/
def tryRelax (setting : Setting) (key : InstructionId) (run : OperandRun) (cost : Nat) :
    Step Walk (Option RunFix) := do
  let some relaxation ← setting.target.relax (← instruction key) run | return none
  if cost < relaxation.added then
    Step.report (.relaxationDear key relaxation.added cost)
    return none
  applyRelaxation setting key run relaxation

end Walk

end RegisterChains

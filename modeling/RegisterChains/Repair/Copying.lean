/-
This file mends a run by copies. It collects what could stand in for each member, has the
best plan searched, allocates the fresh registers, commits the run that results, and puts
the copies in front of the instruction, behind it, or into the preamble.
-/

import RegisterChains.Repair.Walk

namespace RegisterChains

namespace Walk

/-! ### Choices -/

def maxEquivalents : Nat := 4

def maxRecycled : Nat := 4

/-- Adds registers to a list that it does not have yet, other than a given one. -/
def collect (besides : Register) (found others : List Register) : List Register :=
  others.foldl (fun found register =>
    if register = besides || found.contains register then found else found ++ [register]) found

/-- Registers other than the given one that hold the same value now. -/
def equivalents (walk : Walk) (register : Register) : Except Breach (List Register) := do
  let value := (walk.tracking.valueOf register).getD register
  let source := if value ≠ register && value.isVirtual then [value] else []
  let holders ← walk.cache.holders value
  let others := holders.map (·.dest) ++ (walk.hoisted.get? value).toList
  return (collect register source others).take maxEquivalents

/-- Copies that are not read any more, and that neither the instruction nor a choice for its
members names. -/
def recyclable (walk : Walk) (place : UInt32) (instruction : Instruction)
    (wanted : List Register) : List Register :=
  let dead := (walk.cache.deadCopies place).map fun (_, record) => record.dest
  (dead.filter fun register =>
    !instruction.sources.contains register && !instruction.dests.contains register &&
      !wanted.contains register).take maxRecycled

/-- The choices for each member of a run, best first. -/
def choices (setting : Setting) (walk : Walk) (place : UInt32) (instruction : Instruction)
    (run : OperandRun) (operands : List Register) :
    Except Breach (List (Register × List Choice)) := do
  let options := setting.options
  let same ← operands.mapM fun register =>
    if options.reuseCopies && run.side = .source then walk.equivalents register
    else .ok []
  let dead :=
    if options.recycleDeadCopies then
      walk.recyclable place instruction (operands ++ same.flatten)
    else []
  return operands.zip (same.map fun holders =>
    .keep :: holders.map .reuse ++ dead.map .recycle ++ [.fresh])

/-! ### Planning -/

/-- The batches that the copies of a run are made in. Only copies in front of an instruction
can be packed or hoisted. -/
def batches (setting : Setting) (program : Program) (run : OperandRun)
    (operands : List Register) (choices : List Choice) : List Batch :=
  let isSource := run.side == .source
  let width :=
    if isSource && setting.options.packCopies then max setting.target.packWidth 1 else 1
  let hoists := isSource && setting.options.hoistUniformCopies && program.preamble.isSome
  Batch.gather width
    (fun index => hoists && (operands[index]?).any program.isUniform) choices

/-- Plans the copies of a run. If no plan fits, every member is copied. -/
def planCopies (setting : Setting) (place : UInt32) (key : InstructionId) (run : OperandRun)
    (operands : List Register) : Step Walk Plan := do
  let walk ← get
  let members ← choices setting walk place (← instruction key) run operands
  let search := Search.run (walk.graph.fit · run.parity) members
  Step.reportAll search.notes.reverse
  match search.best with
  | some (_, choices) =>
    return ⟨choices, batches setting walk.program run operands choices⟩
  | none =>
    Step.report (.planless key)
    let choices := operands.map fun _ => Choice.fresh
    return ⟨choices, batches setting walk.program run operands choices⟩

/-! ### Carrying out a plan -/

/-- The register each member ends up with, when fresh registers are taken from a list. -/
def assignment : List (Register × Choice) → List UInt32 → Step Walk (List Register)
  | [], _ => return []
  | (register, .keep) :: rest, numbers => do
    return register :: (← assignment rest numbers)
  | (_, .reuse other) :: rest, numbers => do
    count fun stats => { stats with reused := stats.reused + 1 }
    return other :: (← assignment rest numbers)
  | (_, .recycle other) :: rest, numbers => do
    count fun stats => { stats with recycled := stats.recycled + 1 }
    return other :: (← assignment rest numbers)
  | (_, .fresh) :: _, [] => Step.contradict .shortRange
  | (_, .fresh) :: rest, number :: numbers => do
    return .temp number :: (← assignment rest numbers)

def freshNumbers (needed : Nat) : Step Walk (List UInt32) := do
  if needed = 0 then
    return []
  let (start, stop) ← onProgram (Program.allocate needed)
  return (List.range (stop.toNat - start.toNat)).map fun index => start + index.toUInt32

/-- Settles the registers of a planned run, commits the run, and lets the instruction name
them. -/
def applyPlan (key : InstructionId) (run : OperandRun) (operands : List Register)
    (plan : Plan) : Step Walk (List Register) := do
  let numbers ← freshNumbers plan.freshCount
  let assigned ← assignment (operands.zip plan.choices) numbers
  match ← judge assigned run.parity with
  | .error conflict => Step.contradict (.unrepaired assigned conflict)
  | .ok fit =>
    commit assigned fit.parity
    setInstruction key (← run.replace (← instruction key) assigned)
    Step.report (.repaired key assigned)
    return assigned

def remember (place : UInt32) (value holder : Register) (copy : InstructionId) (owned : Bool) :
    Step Walk Unit := do
  onTracking (modify (·.noteDef holder))
  let _ ← onTracking (Tracking.recordCopy value holder (some copy) place owned)

def hoistCopy (place : UInt32) (value holder : Register) : Step Walk Unit := do
  let some preamble := (← get).program.preamble | Step.contradict .hoistWithoutPreamble
  let copy ← onProgram (Program.push preamble (.move holder value))
  onProgram (modify (Program.exportRegister holder))
  count fun stats => { stats with hoisted := stats.hoisted + 1 }
  modify fun walk => { walk with hoisted := walk.hoisted.insert value holder }
  remember place value holder copy false

def copyInstruction (pairs : List (Register × Register)) : Except Breach Instruction :=
  match pairs with
  | [(value, holder)] => .ok (.move holder value)
  | _ => Instruction.packed (pairs.map (·.2)) (pairs.map (·.1))

def rememberAll (place : UInt32) (copy : InstructionId) :
    List (Register × Register) → Step Walk Unit
  | [] => return ()
  | (value, holder) :: rest => do
    remember place value holder copy true
    rememberAll place copy rest

def copyInFront (place : UInt32) (key : InstructionId) (pairs : List (Register × Register)) :
    Step Walk Unit := do
  let copy ← onProgram (Program.insertBefore key (← copyInstruction pairs))
  count fun stats => { stats with copies := stats.copies + 1 }
  rememberAll place copy pairs

def copyIn (place : UInt32) (key : InstructionId) (pairs : List (Register × Register)) :
    List Batch → Step Walk Unit
  | [] => return ()
  | .hoist index :: rest => do
    let some (value, holder) := pairs[index]? | Step.breach .outOfRange
    hoistCopy place value holder
    copyIn place key pairs rest
  | .inPlace start width :: rest => do
    copyInFront place key ((pairs.drop start).take width)
    copyIn place key pairs rest

/-- Makes the copies that put back what an instruction writes elsewhere, one behind the
other. -/
def copyOut (anchor : InstructionId) :
    List (Register × Register × Choice) → Step Walk (List PendingCopy)
  | [] => return []
  | (value, holder, choice) :: rest => do
    if !choice.needsCopy then
      copyOut anchor rest
    else
      let copy ← onProgram (Program.insertAfter anchor (.move value holder))
      count fun stats => { stats with copies := stats.copies + 1 }
      return ⟨value, holder, copy⟩ :: (← copyOut copy rest)

def copyRun (place : UInt32) (key : InstructionId) (run : OperandRun)
    (operands : List Register) (plan : Plan) : Step Walk RunFix := do
  let assigned ← applyPlan key run operands plan
  match run.side with
  | .source =>
    copyIn place key (operands.zip assigned) plan.batches
    return .holds
  | .dest =>
    return .copiedOut (← copyOut key (operands.zip (assigned.zip plan.choices)))

end Walk

end RegisterChains

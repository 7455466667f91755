/-
This file handles one instruction of a block after the other. Each run of an instruction is
committed if it fits, and otherwise repaired by the cheapest means that works: another
order, the constant bank, a cheaper encoding, copies. Then the known copies are brought up
to date with what the instruction reads and writes.
-/

import RegisterChains.Repair.Copying
import RegisterChains.Repair.Encoding

namespace RegisterChains

namespace Walk

/-! ### One run -/

def repairRun (setting : Setting) (place : UInt32) (key : InstructionId) (run : OperandRun)
    (operands : List Register) : Step Walk RunFix := do
  let options := setting.options
  if options.reorderOperands then
    if ← tryReorder setting key run operands then
      Step.report (.reordered key)
      count fun stats => { stats with reordered := stats.reordered + 1 }
      return .holds
  if options.substituteConstants then
    if ← tryConstants setting key run operands then
      Step.report (.substituted key)
      count fun stats => { stats with substituted := stats.substituted + 1 }
      return .holds
  let plan ← planCopies setting place key run operands
  if options.relaxEncodings then
    if let some fix ← tryRelax setting key run plan.cost then
      count fun stats => { stats with relaxed := stats.relaxed + 1 }
      return fix
  copyRun place key run operands plan

def handleRun (setting : Setting) (place : UInt32) (key : InstructionId) (run : OperandRun) :
    Step Walk RunFix := do
  let operands ← run.operands (← instruction key)
  let stats ← (← get).stats.countChecked
  modify fun walk => { walk with stats := stats }
  match ← judge operands run.parity with
  | .ok fit =>
    commit operands fit.parity
    return .holds
  | .error conflict =>
    Step.report (.conflicts key run.side operands conflict)
    count fun stats => { stats with repaired := stats.repaired + 1 }
    repairRun setting place key run operands

/-! ### All runs of an instruction -/

/-- What the runs of an instruction came to, with the copies behind it. -/
inductive Settled where
  | holding (pending : List PendingCopy)
  | narrowed (pending : List PendingCopy)
  | replaced (pending : List PendingCopy) (resume : Option InstructionId)

/-- Makes runs hold one after the other, until the instruction changes its shape. -/
def handleRuns (setting : Setting) (place : UInt32) (key : InstructionId) :
    List OperandRun → List PendingCopy → Step Walk Settled
  | [], pending => return .holding pending
  | run :: rest, pending => do
    match ← handleRun setting place key run with
    | .holds => handleRuns setting place key rest pending
    | .copiedOut copies => handleRuns setting place key rest (pending ++ copies)
    | .narrowed => return .narrowed pending
    | .replaced resume => return .replaced pending resume

/-- The runs of an instruction, those it writes first: mending one of them may remove the
instruction. -/
def runsInOrder (target : Target) (instruction : Instruction) : List OperandRun :=
  let runs := target.runs instruction
  runs.filter (·.side == .dest) ++ runs.filter (·.side == .source)

/-- Makes every run of an instruction hold, from the start again whenever the instruction is
narrowed. Each time counts at least one run, so the range of the counts bounds how often
that can be. -/
def settle (setting : Setting) (place : UInt32) (key : InstructionId) :
    Nat → List PendingCopy → Step Walk Settled
  | 0, _ => Step.breach .overflow
  | headroom + 1, pending => do
    let runs := runsInOrder setting.target (← instruction key)
    match ← handleRuns setting place key runs pending with
    | .narrowed pending => settle setting place key headroom pending
    | settled => return settled

/-! ### What an instruction does to the known copies -/

def noteUses (place : UInt32) (operands : List Register) (walk : Walk) : Walk :=
  let tracking := operands.foldl (fun tracking register => tracking.noteUse register place)
    walk.tracking
  { walk with cache := tracking.cache, graph := tracking.graph }

/-- Brings the known copies up to date with a register that is written, in the block and in
the preamble. -/
def noteDef (walk : Walk) (register : Register) : Walk :=
  let tracking := walk.tracking.noteDef register
  { walk with
    cache := tracking.cache
    graph := tracking.graph
    hoisted := walk.hoisted.filter fun value holder => value ≠ register && holder ≠ register }

/-- Remembers that the two registers of a copy behind an instruction hold the same value. -/
def recordPending (place : UInt32) (copy : PendingCopy) : Step Walk Unit := do
  onTracking (modify (·.noteDef copy.value))
  let _ ← onTracking
    (Tracking.recordCopy copy.value copy.holder (some copy.instruction) place false)

/-- Remembers copies behind an instruction. Gives the last of them, or the instruction. -/
def recordAllPending (place : UInt32) :
    InstructionId → List PendingCopy → Step Walk InstructionId
  | last, [] => return last
  | _, copy :: rest => do
    recordPending place copy
    recordAllPending place copy.instruction rest

/-- Remembers the copy that the walk has just reached, if it stands behind a replaced
instruction. -/
def recordDeferred (place : UInt32) (key : InstructionId) : Step Walk Unit := do
  let deferred := (← get).deferred
  if let some copy := deferred.find? (·.instruction == key) then
    modify fun walk => { walk with deferred := deferred.erase copy }
    recordPending place copy

/-! ### One instruction -/

/-- Handles what an instruction does, once all its runs hold. Gives the next instruction. -/
def conclude (setting : Setting) (place : UInt32) (key : InstructionId)
    (pending : List PendingCopy) : Step Walk (Option InstructionId) := do
  let instruction ← instruction key
  modify (noteUses place instruction.sources)
  modify fun walk => instruction.dests.foldl noteDef walk
  if setting.target.deschedules instruction then
    Step.report (.descheduled key)
    onTracking Tracking.clear
  recordDeferred place key
  let last ← recordAllPending place key pending
  (← get).program.layout.nextOf last

def visit (setting : Setting) (place : UInt32) (key : InstructionId) :
    Step Walk (Option InstructionId) := do
  let headroom := Stats.limit - (← get).stats.checked
  match ← settle setting place key headroom [] with
  | .holding pending | .narrowed pending => conclude setting place key pending
  | .replaced pending resume =>
    Step.report (.replaced key resume)
    modify fun walk => { walk with deferred := walk.deferred ++ pending }
    return resume

/-! ### One block -/

/-- Handles the instructions of a block from one on. Places in a block are 32-bit numbers,
of which `remaining` are left. -/
def visitFrom (setting : Setting) : Nat → Option InstructionId → Step Walk Unit
  | _, none => return ()
  | 0, some key => do
    let _ ← visit setting 0xffffffff key
    Step.breach .overflow
  | remaining + 1, some key => do
    let next ← visit setting (0xfffffffe - remaining.toUInt32) key
    visitFrom setting remaining next

end Walk

namespace Pass

def resolveBlock (setting : Setting) (block : BlockId) : Step Pass Unit := do
  let program := (← get).program
  let first ← program.layout.firstOf block
  Step.report (.blockBegun (← program.blockNames.get block))
  let steps : Step Walk Unit := do
    Walk.visitFrom setting 0xffffffff first
    Walk.onTracking Tracking.finish
  fun pass =>
    let inner := steps ⟨pass, .empty block, []⟩
    ⟨inner.result, inner.state.toPass, inner.notes⟩

def resolveBlocks (setting : Setting) : List BlockId → Step Pass Unit
  | [] => return ()
  | block :: rest => do
    resolveBlock setting block
    resolveBlocks setting rest

end Pass

end RegisterChains

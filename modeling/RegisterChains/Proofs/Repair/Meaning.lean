/-
This file compares two runs: one of the code that a walk started from, and one of the code that it
has made of it. The two states agree when every register that was in use before the walk holds the
same in both. At an instruction that is visited, the known copies are true, and the instruction
computes what the original one computes; what it writes elsewhere is put back behind it.

For that, the instructions the walk starts from have to be regular, and no register that counts as
uniform may be written in the body.
-/

import Mathlib.Tactic.MkIffOfInductiveProp
import RegisterChains.Proofs.Repair.Tracing
import RegisterChains.Proofs.Rewriting

namespace RegisterChains

open Arithmetic Contents Instruction List MachineSpec OperandRun Origin

variable {r : Register} {inst : Instruction}

/-- An instruction whose destinations are different registers that can be written. Copies have as
many operands as destinations, every channel of a sample is read, and the places of a run that is
read through a swizzle fit in a lane. -/
@[mk_iff]
structure Instruction.Regular (inst : Instruction) : Prop where
  distinct : inst.dests.Nodup
  writable : ∀ dest ∈ inst.dests, dest.isConstant = false
  paired : inst.opcode = .pack ∨ inst.opcode = .vmov → inst.sources.length = inst.dests.length
  channels : inst.opcode = .smp → ∀ index < inst.dests.length, channelUsed inst index = .ok true
  short : ∀ run ∈ runs inst, run.swizzle.isSome = true → run.count ≤ 256

instance (inst : Instruction) : Decidable inst.Regular :=
  decidable_of_iff' _ (regular_iff inst)

/-- A sample of two channels at two coordinates. -/
def Instruction.pairSample (dests sources : List Register) : Instruction :=
  { plain .smp dests sources with swizzles := [⟨#v[0, 1, 0, 0], 2⟩], writeMask := 3 }

namespace Arithmetic

variable {arith : Arithmetic} {cs : Contents}

/-- The state after some lines. -/
def execute (arith : Arithmetic) (lines : List Line) (cs : Contents) : Contents :=
  arith.run (lines.map Prod.snd) cs

theorem execute_append (lines rest : List Line) : arith.execute (lines ++ rest) cs =
    arith.execute rest (arith.execute lines cs) := by
  unfold execute
  rw [map_append, run_append]

/-- The second register of each pair holds what the first one reads as. -/
def Held (arith : Arithmetic) (copies : List (Register × Register)) (cs : Contents) : Prop :=
  ∀ pair ∈ copies, cs pair.2 = arith.read cs pair.1

/-- A regular instruction with a run that is written computes a value for each destination. -/
theorem length_results (regular : inst.Regular)
    (opcode : inst.opcode = .pack ∨ inst.opcode = .vmov ∨ inst.opcode = .smp)
    (v : Register → UInt32) : (arith.results inst (inst.sources.map v)).length =
      inst.dests.length := by
  unfold results
  rcases opcode with isPack | isWide | isSample
  · rw [isPack]
    exact (length_map ..).trans (regular.paired (.inl isPack))
  · rw [isWide]
    exact (length_map ..).trans (regular.paired (.inr isWide))
  · rw [isSample]
    simp

end Arithmetic

namespace Origin

variable {origin : Origin} {arith : Arithmetic} {spec : MachineSpec} {cs other : Contents}
  {blk : BlockId} {lines : List Line} {copies : List (Register × Register)} {prog : Program}

/-- The lines of the body are regular and write no uniform register, and the numbers of the
constants are numbers of registers. -/
structure Regular (origin : Origin) (spec : MachineSpec) : Prop where
  lines : ∀ block ∈ origin.order, ∀ line ∈ origin.code block, line.2.Regular
  uniform : ∀ block ∈ origin.order, ∀ reg, origin.Writes block reg →
    origin.program.isUniform reg = false
  constants : spec.constants.length ≤ UInt32.size

/-- The registers in use before the walk hold the same. -/
def Agrees (origin : Origin) (cs other : Contents) : Prop := ∀ r, origin.Own r → other r = cs r

theorem Agrees.read (agrees : origin.Agrees cs other) (own : origin.Own r) :
    arith.read other r = arith.read cs r := by
  unfold Arithmetic.read
  rw [agrees r own]

theorem isVirtual_of_not_own (new : ¬ origin.Own r) : r.isVirtual = true := by
  by_contra hardware
  exact new fun virt => absurd virt hardware

/-- When the copies in the preamble are made, they hold, and the registers in use before the walk
are as they were. -/
theorem Hoists.run (hoisted : origin.Hoists prog copies) (arith : Arithmetic) (cs : Contents) :
    origin.Agrees cs (arith.run (copies.map Walk.hoistedMove) cs) ∧
      arith.Held copies (arith.run (copies.map Walk.hoistedMove) cs) := by
  have absent : ∀ r, origin.Own r → ∀ copy ∈ copies.map Walk.hoistedMove, r ∉ copy.dests := by
    intro r own copy mem written
    obtain ⟨pair, isMem, rfl⟩ := mem_map.mp mem
    cases mem_singleton.mp written
    exact (hoisted.holders pair isMem).1 own
  refine ⟨fun r own => run_of_notMem (absent r own), fun pair mem => ?_⟩
  rw [read_run_of_notMem (absent pair.1 (hoisted.values pair mem).1)]
  have groups : List.Forall₂ Copies (copies.map Walk.hoistedMove)
      (copies.map fun pair => [pair]) := by
    rw [forall₂_map_left_iff, forall₂_map_right_iff]
    exact forall₂_same.mpr fun pair _ => copies_move pair.1 pair.2
  have flat : (copies.map fun pair => [pair]).flatten = copies := by
    rw [← flatMap_def, flatMap_singleton']
  refine run_copies groups (fun pair isMem one mem' same => ?_)
    (fun pair isMem one mem' same => ?_) pair (flat.symm ▸ mem)
  · rw [flat] at isMem mem'
    exact (hoisted.holders one mem').1 (same ▸ (hoisted.values pair isMem).1)
  · rw [flat] at isMem mem'
    exact congrArg Prod.fst (hoisted.single pair isMem one mem' same)

/-- What is copied in the preamble stays true along the lines of a block. -/
theorem Regular.held (regular : origin.Regular spec) (body : blk ∈ origin.order)
    (hoisted : origin.Hoists prog copies)
    (stems : ∀ line ∈ lines, origin.Stems prog copies blk line) (held : arith.Held copies cs) :
    arith.Held copies (arith.execute lines cs) := by
  intro pair mem
  obtain ⟨own, isUniform, _⟩ := hoisted.values pair mem
  unfold execute
  rw [run_of_notMem, read_run_of_notMem]
  · exact held pair mem
  · intro inst isMem written
    obtain ⟨line, isLine, rfl⟩ := mem_map.mp isMem
    have writes := ((stems line isLine).writes pair.1 written).2 own
    cases isUniform.symm.trans (regular.uniform blk body pair.1 writes)
  · intro inst isMem written
    obtain ⟨line, isLine, rfl⟩ := mem_map.mp isMem
    exact ((stems line isLine).writes pair.2 written).1 pair mem rfl

end Origin

namespace Walk

variable {origin : Origin} {arith : Arithmetic} {spec : MachineSpec} {options : Options}
  {level : Option Level} {k : InstructionId} {run : OperandRun} {runs : List OperandRun}
  {walk after : Walk} {base : Stage} {blk : BlockId} {orig cur ch : Instruction}
  {ops assigned : List Register} {copies placed hoists pairs : List (Register × Register)}
  {next : UInt32} {pending post : List PendingCopy} {scene : Scene} {made code : List Instruction}
  {cs other : Contents} {lines : List Line}

/-! ### Copies in place -/

theorem copies_of_copyInstruction {copy : Instruction} (isCopy : copyInstruction pairs = .ok copy) :
    copy.Copies pairs := by
  obtain ⟨dests, sources⟩ := copyInstruction_eq_ok isCopy
  refine ⟨dests, sources, ?_⟩
  rcases copyInstruction_cases isCopy with ⟨_, _, rfl, rfl⟩ | rfl
  · exact .inl ⟨rfl, rfl⟩
  · exact .inr rfl

theorem Copied.groups {batches : List Batch} (copied : Copied pairs batches made placed hoists) :
    ∃ groups, List.Forall₂ Copies made groups ∧ groups.flatten = placed := by
  induction copied with
  | nil => exact ⟨[], .nil, rfl⟩
  | hoist _ _ ih => exact ih
  | inPlace isCopy _ ih =>
    obtain ⟨groups, copies, flat⟩ := ih
    exact ⟨_ :: groups, .cons (copies_of_copyInstruction isCopy) copies, by rw [flatten_cons, flat]⟩

/-- The registers that are filled in place hold what they are filled with. -/
theorem Mends.fills {setting : Setting}
    (mends : Mends setting walk run cur ops next placed hoists made ch post)
    (own : ∀ pair ∈ placed, origin.Own pair.1) (new : ∀ pair ∈ placed, ¬ origin.Own pair.2)
    (once : ∀ pair ∈ placed, ∀ one ∈ placed, pair.2 = one.2 → pair = one) :
    ∀ pair ∈ placed, arith.run made cs pair.2 = arith.read cs pair.1 := by
  cases mends with
  | fits | reordered _ | substituted _ | copiedOut _ _ _ =>
    intro pair impossible
    cases impossible
  | copiedIn _ _ copied _ =>
    obtain ⟨groups, copies, rfl⟩ := copied.groups
    exact run_copies copies
      (fun pair mem one mem' same => new one mem' (same ▸ own pair mem))
      fun pair mem one mem' same => congrArg Prod.fst (once pair mem one mem' same)

/-! ### What stays true of the known copies -/

/-- After some code, what has not been forgotten is still true, and what was learned has to be
shown. -/
theorem Learns.truthful {written : List Register} {owned : Bool}
    (learns : Learns walk written pairs owned after) (truthful : walk.tracking.Truthful arith cs)
    (writes : ∀ inst ∈ code, ∀ dest ∈ inst.dests, dest ∈ written)
    (new : ∀ pair ∈ pairs, pair.2.isVirtual = true ∧
      arith.run code cs pair.2 = arith.read (arith.run code cs) pair.1) :
    after.tracking.Truthful arith (arith.run code cs) := by
  intro v dest isOwned known
  rcases learns.knows v dest isOwned known with ⟨old, valueKept, destKept⟩ | ⟨_, isMem⟩
  · obtain ⟨virt, same⟩ := truthful v dest isOwned old
    refine ⟨virt, ?_⟩
    rw [run_of_notMem fun inst mem written => destKept (writes inst mem dest written),
      read_run_of_notMem fun inst mem written => valueKept (writes inst mem v written)]
    exact same
  · exact new (v, dest) isMem

theorem Gains.truthful (gains : walk.Gains placed hoists after)
    (truthful : walk.tracking.Truthful arith cs)
    (writes : ∀ inst ∈ code, ∀ dest ∈ inst.dests, ∃ pair ∈ placed, pair.2 = dest)
    (new : ∀ pair ∈ placed ++ hoists, pair.2.isVirtual = true ∧
      arith.run code cs pair.2 = arith.read (arith.run code cs) pair.1) :
    after.tracking.Truthful arith (arith.run code cs) := by
  intro v dest owned known
  rcases gains.knows v dest owned known with ⟨old, kept⟩ | ⟨_, isMem⟩ | ⟨_, isMem⟩
  · obtain ⟨virt, same⟩ := truthful v dest owned old
    have absent : ∀ r, (∀ pair ∈ placed, r ≠ pair.2) → ∀ inst ∈ code, r ∉ inst.dests := by
      intro r apart inst mem written
      obtain ⟨pair, isMem, same⟩ := writes inst mem r written
      exact apart pair isMem same.symm
    refine ⟨virt, ?_⟩
    rw [run_of_notMem (absent dest fun pair mem =>
        (kept pair (mem_append_left _ mem)).2),
      read_run_of_notMem (absent v fun pair mem =>
        (kept pair (mem_append_left _ mem)).1)]
    exact same
  · exact new (v, dest) (mem_append_left _ isMem)
  · exact new (v, dest) (mem_append_right _ isMem)

/-! ### What an instruction computes while it is visited -/

/-- The two states at an instruction that is visited. -/
structure Matches (arith : Arithmetic) (origin : Origin) (walk : Walk)
    (orig cur : Instruction) (contents other : Contents) : Prop where
  agrees : origin.Agrees contents other
  truthful : walk.tracking.Truthful arith other
  computes : arith.results cur (cur.sources.map (arith.read other)) =
    arith.results orig (orig.sources.map (arith.read contents))

/-- An instruction computes the same when the operands of a run that is read are replaced by
others that read as the same values. -/
theorem results_replaced (side : run.side = .source) (found : run.operands cur = .ok ops)
    (replaced : run.replace cur assigned = .ok ch) {v value' : Register → UInt32}
    (same : assigned.map value' = ops.map v)
    (kept : ∀ source ∈ cur.sources, value' source = v source) :
    arith.results ch (ch.sources.map value') = arith.results cur (cur.sources.map v) := by
  obtain ⟨pre, post, cuts⟩ := operands_eq_ok.mp found
  obtain ⟨_, rfl⟩ := cuts.replace_eq_ok.mp replaced
  have list := (list_of_source side cur).symm.trans cuts.list
  rw [withList_of_source side, results_congr rfl rfl rfl rfl]
  refine congrArg (arith.results cur) ?_
  rw [list] at kept
  simp only [list, map_append]
  rw [same, map_congr_left fun source mem => kept source (by simp [mem]),
    map_congr_left fun source mem => kept source (by simp [mem])]

/-- Whatever stands for the operands of a run reads as they did, once the copies are made. -/
theorem Supplies.reads {after : Program} {other' : Contents}
    (supplies : Supplies walk run cur next ops assigned placed hoists)
    (grounded : Grounded origin copies walk) (own : ∀ op ∈ ops, origin.Own op)
    (grown : next ≤ after.nextTemp) (keeps : walk.program.Keeps after)
    (truthful : walk.tracking.Truthful arith other) (held : arith.Held (copies ++ hoists) other)
    (fills : ∀ pair ∈ placed, other' pair.2 = arith.read other pair.1)
    (kept : ∀ r, (∀ pair ∈ placed, pair.2 ≠ r) → other' r = other r) :
    assigned.map (arith.read other') = ops.map (arith.read other) := by
  have takes := supplies.takes own
  have fresh := fun pair (mem : pair ∈ placed) => takes.of_placed grounded grown keeps mem
  have hoisted := takes.appends grounded grown keeps
  have each : ∀ pair ∈ ops.zip assigned, arith.read other' pair.2 = arith.read other pair.1 := by
    intro pair isMem
    -- A register that is already filled is overwritten only by the copy for its own place.
    have settled : ¬ origin.Own pair.2 → other pair.2 = arith.read other pair.1 →
        arith.read other' pair.2 = arith.read other pair.1 := by
      intro new filled
      rw [Arithmetic.read_of_virtual (isVirtual_of_not_own new)]
      by_cases again : ∃ copy ∈ placed, copy.2 = pair.2
      · obtain ⟨copy, mem, same⟩ := again
        cases supplies.eq_of_snd (supplies.vacant copy mem).1 isMem same
        exact fills _ mem
      · rw [kept pair.2 fun copy mem same => again ⟨copy, mem, same⟩]
        exact filled
    rcases supplies.each pair isMem with same | ⟨_, others, isOthers, mem⟩ | isPlaced | isHoist
    · rw [same]
      have isOwn := own pair.1 (of_mem_zip isMem).1
      unfold Arithmetic.read
      rw [kept pair.1 fun copy mem same => (fresh copy mem).1 (same ▸ isOwn)]
    · have isOwn := own pair.1 (of_mem_zip isMem).1
      rcases grounded.aware.of_equivalents grounded.sound isOwn isOthers mem with
        ⟨owned, known⟩ | isCopy
      · exact settled (grounded.aware.knows _ _ _ known).2.1 (truthful _ _ _ known).2
      · exact settled (grounded.hoisted.holders _ isCopy).1 (held pair (mem_append_left _ isCopy))
    · rw [Arithmetic.read_of_virtual (isVirtual_of_not_own (fresh pair isPlaced).1)]
      exact fills pair isPlaced
    · have mem := mem_append_right copies isHoist
      exact settled (hoisted.holders pair mem).1 (held pair mem)
  refine ext_getElem (by simp [supplies.length]) fun index bound bound' => ?_
  rw [length_map] at bound bound'
  rw [getElem_map, getElem_map]
  refine each (ops[index], assigned[index]) (mem_of_getElem? (i := index) ?_)
  exact getElem?_zip_eq_some.mpr ⟨getElem?_eq_getElem bound', getElem?_eq_getElem bound⟩

/-- The registers that are filled in place are not among those that an instruction names. -/
theorem Takes.apart_of_noted (takes : Takes origin walk cur next placed hoists)
    (noted : ∀ source ∈ cur.sources, walk.program.Noted source) :
    ∀ source ∈ cur.sources, ∀ pair ∈ placed, pair.2 ≠ source := by
  rintro source isMem pair mem rfl
  rcases (takes.vacant pair mem).2 with handed | ⟨_, absent, _⟩
  · exact handed.not_noted (noted _ isMem)
  · exact absent isMem

section

variable (regular : orig.Regular) (holds : arith.Holds spec)
  (small : spec.constants.length ≤ UInt32.size)
  (visits : Visits origin base blk k walk scene orig cur pending)
  (same : MachineSpec.runs cur = MachineSpec.runs orig)
  (progress : Progress orig cur pending (run :: runs)) (found : run.operands cur = .ok ops)
  (mends : Mends ⟨spec.target, options, level⟩ walk run cur ops next placed hoists made ch post)
  (grown : next ≤ after.program.nextTemp) (keeps : walk.program.Keeps after.program)

include regular holds small visits same progress found mends grown keeps

/-- A changed instruction computes the same, once the copies in front of it are made. -/
theorem Visits.computes (truthful : walk.tracking.Truthful arith other)
    (held : arith.Held (scene.copies ++ hoists) other)
    (fills : ∀ pair ∈ placed, arith.run made other pair.2 = arith.read other pair.1)
    (kept : ∀ r, (∀ pair ∈ placed, pair.2 ≠ r) → ∀ copy ∈ made, r ∉ copy.dests) :
    arith.results ch (ch.sources.map (arith.read (arith.run made other))) =
      arith.results cur (cur.sources.map (arith.read other)) := by
  have own := progress.own visits.member found
  have listed := progress.listed run mem_cons_self
  cases mends with
  | fits => rfl
  | reordered reordered =>
    obtain ⟨order, _, _, accepts, reorders⟩ := reordered.order
    have side := side_of_acceptsOrder accepts
    obtain ⟨_, picked, _, _, moved, moves, isChanged⟩ := Target.reorderBySwizzle_eq_ok reorders
    change MachineSpec.acceptsOrder cur run order = true at accepts
    unfold MachineSpec.acceptsOrder at accepts
    simp only [Bool.and_eq_true] at accepts
    exact results_reordered moves accepts.1.2
      (regular.short run (same ▸ listed) (by rw [moves.isSlot]; rfl)) isChanged _
      (isRead_of_mem listed side)
  | substituted substituted =>
    obtain ⟨values, start, known, isStart, isConstants⟩ := substituted.values
    exact results_replaced substituted.side found substituted.replaced
      (read_constants holds small known isStart isConstants other) fun _ _ => rfl
  | copiedIn side replaced copied supplies =>
    have noted : ∀ source ∈ cur.sources, walk.program.Noted source := fun source mem =>
      visits.stems.noted source (mem_append_right _ mem)
    refine results_replaced side found replaced
      (supplies.reads visits.grounded own grown keeps truthful held fills fun r apart =>
        run_of_notMem (kept r apart)) fun source mem =>
      read_run_of_notMem (kept source ?_)
    exact (supplies.takes own).apart_of_noted noted source mem
  | copiedOut side replaced supplies =>
    obtain ⟨length, rfl⟩ := (isWritten_of_mem listed side).replace_eq_ok.mp replaced
    exact results_congr (by rfl) length (by rfl) (by rfl) _

/-- While a run is handled, the states keep matching. -/
theorem Matches.mend (gains : walk.Gains placed hoists after)
    (fits : Matches arith origin walk orig cur cs other)
    (held : arith.Held (scene.copies ++ hoists) other)
    (held' : arith.Held (scene.copies ++ hoists) (arith.run made other)) :
    Matches arith origin after orig ch cs (arith.run made other) := by
  have grounded := visits.grounded
  have takes := mends.takes (progress.own visits.member found)
  have fresh := fun pair (mem : pair ∈ placed) => takes.of_placed grounded grown keeps mem
  have hoisted := takes.appends grounded grown keeps
  have filled : ∀ pair ∈ placed, arith.run made other pair.2 = arith.read other pair.1 :=
    mends.fills (fun pair mem => (takes.vacant pair mem).1)
      (fun pair mem => (fresh pair mem).1) takes.once
  have absent : ∀ r, (∀ pair ∈ placed, pair.2 ≠ r) → ∀ copy ∈ made, r ∉ copy.dests := by
    intro r apart copy mem written
    obtain ⟨pair, isMem, same⟩ := (mends.of_made mem).1 r written
    exact apart pair isMem same
  have ownKept : ∀ r, origin.Own r → ∀ copy ∈ made, r ∉ copy.dests :=
    fun r isOwn => absent r fun pair mem same => (fresh pair mem).1 (same ▸ isOwn)
  refine ⟨fun r isOwn => ?_, ?_, ?_⟩
  · rw [run_of_notMem (ownKept r isOwn)]
    exact fits.agrees r isOwn
  · refine gains.truthful fits.truthful (fun copy mem => (mends.of_made mem).1) fun pair mem => ?_
    rcases mem_append.mp mem with isPlaced | isHoist
    · refine ⟨isVirtual_of_not_own (fresh pair isPlaced).1, ?_⟩
      rw [filled pair isPlaced, read_run_of_notMem (ownKept _ (takes.vacant pair isPlaced).1)]
    · have isCopy := mem_append_right scene.copies isHoist
      exact ⟨isVirtual_of_not_own (hoisted.holders pair isCopy).1, held' pair isCopy⟩
  · exact (visits.computes regular holds small same progress found mends grown keeps fits.truthful
      held filled absent).trans fits.computes

end

/-! ### What an instruction writes -/

/-- A visited instruction has the runs of the original one and writes the same registers, apart
from those that are put back by the copies behind it. -/
structure Redirects (orig cur : Instruction) (pending : List PendingCopy) : Prop where
  runs : MachineSpec.runs cur = MachineSpec.runs orig
  length : cur.dests.length = orig.dests.length
  distinct : cur.dests.Nodup
  each : ∀ pair ∈ orig.dests.zip cur.dests, pair.2 = pair.1 ∨
    ∃ copy ∈ pending, pair = copy.pair
  listed : ∀ copy ∈ pending, copy.pair ∈ orig.dests.zip cur.dests
  opcode : pending ≠ [] → orig.opcode = .pack ∨ orig.opcode = .vmov ∨ orig.opcode = .smp

theorem redirects_self (distinct : orig.dests.Nodup) : Redirects orig orig [] := by
  refine ⟨rfl, rfl, distinct, fun pair mem => .inl ?_,
    forall_mem_nil _, fun impossible => absurd rfl impossible⟩
  obtain ⟨i, atPlace⟩ := getElem?_of_mem mem
  obtain ⟨isDest, isOrig⟩ := getElem?_zip_eq_some.mp atPlace
  exact Option.some.inj (isOrig.symm.trans isDest)

theorem dests_of_replace (side : run.side = .source) (found : run.operands cur = .ok ops)
    (replaced : run.replace cur assigned = .ok ch) : ch.dests = cur.dests := by
  obtain ⟨pre, post, cuts⟩ := operands_eq_ok.mp found
  obtain ⟨_, rfl⟩ := cuts.replace_eq_ok.mp replaced
  rw [withList_of_source side]

/-- Handling a run redirects what is written only if the run is written. -/
theorem Redirects.mends (redirects : Redirects orig cur pending)
    (untouched : run.side = .dest → cur = orig ∧ pending = [])
    (listed : run ∈ MachineSpec.runs cur) (found : run.operands cur = .ok ops)
    (mends : Mends ⟨spec.target, options, level⟩ walk run cur ops next placed hoists made ch post)
    (same : MachineSpec.runs ch = MachineSpec.runs cur) : Redirects orig ch (pending ++ post) := by
  have runs := same.trans redirects.runs
  have kept : post = [] → ch.dests = cur.dests → Redirects orig ch (pending ++ post) := by
    rintro rfl dests
    rw [append_nil]
    exact ⟨runs, dests ▸ redirects.length, dests ▸ redirects.distinct, dests ▸ redirects.each,
      dests ▸ redirects.listed, redirects.opcode⟩
  cases mends with
  | fits => exact kept rfl rfl
  | reordered reordered =>
    obtain ⟨order, _, _, accepts, reorders⟩ := reordered.order
    obtain ⟨_, picked, _, _, moved, moves, rfl⟩ := Target.reorderBySwizzle_eq_ok reorders
    have dests := dests_of_replace (side_of_acceptsOrder accepts) moves.isRun moves.replaced
    exact kept rfl dests
  | substituted substituted =>
    exact kept rfl (dests_of_replace substituted.side found substituted.replaced)
  | copiedIn side replaced _ _ => exact kept rfl (dests_of_replace side found replaced)
  | copiedOut side replaced supplies =>
    obtain ⟨rfl, rfl⟩ := untouched side
    have written := isWritten_of_mem listed side
    cases written.operands_eq.symm.trans found
    obtain ⟨length, rfl⟩ := written.replace_eq_ok.mp replaced
    refine ⟨runs, length, supplies.distinct, fun pair isMem => ?_, fun copy mem => ?_,
      fun _ => written.1⟩
    · rcases supplies.each pair isMem with same | ⟨isSource, _⟩ | isPlaced | impossible
      · exact .inl same
      · cases side.symm.trans isSource
      · obtain ⟨copy, mem, rfl⟩ := mem_map.mp isPlaced
        exact .inr ⟨copy, mem, rfl⟩
      · cases impossible
    · exact (supplies.vacant _ (mem_map_of_mem mem)).1

/-- The copies behind an instruction fill the registers that they put back. -/
theorem run_returns (values : ∀ copy ∈ pending, origin.Own copy.value)
    (holders : ∀ copy ∈ pending, ¬ origin.Own copy.holder)
    (single : ∀ copy ∈ pending, ∀ copy' ∈ pending, copy.value = copy'.value →
      copy.holder = copy'.holder) {copy : PendingCopy} (mem : copy ∈ pending) :
    arith.execute (pending.map PendingCopy.line) cs copy.value = cs copy.holder := by
  have copies : List.Forall₂ Copies ((pending.map PendingCopy.line).map Prod.snd)
      (pending.map fun copy => [(copy.holder, copy.value)]) := by
    rw [map_map, forall₂_map_left_iff, forall₂_map_right_iff]
    exact forall₂_same.mpr fun copy _ => copies_move copy.holder copy.value
  have flat : ∀ pair ∈ (pending.map fun copy => [(copy.holder, copy.value)]).flatten,
      ∃ copy ∈ pending, pair = (copy.holder, copy.value) := by
    intro pair isMem
    obtain ⟨_, isGroup, isMem⟩ := mem_flatten.mp isMem
    obtain ⟨copy, mem, rfl⟩ := mem_map.mp isGroup
    exact ⟨copy, mem, mem_singleton.mp isMem⟩
  refine (run_copies copies (fun pair isMem pair' isMem' same => ?_)
    (fun pair isMem pair' isMem' same => ?_) (copy.holder, copy.value) ?_).trans
    (read_of_virtual (isVirtual_of_not_own (holders copy mem)))
  · obtain ⟨copy, mem, rfl⟩ := flat pair isMem
    obtain ⟨copy', mem', rfl⟩ := flat pair' isMem'
    change copy.holder = copy'.value at same
    exact holders copy mem (same ▸ values copy' mem')
  · obtain ⟨copy, mem, rfl⟩ := flat pair isMem
    obtain ⟨copy', mem', rfl⟩ := flat pair' isMem'
    exact single copy mem copy' mem' same
  · exact mem_flatten.mpr ⟨_, mem_map_of_mem mem, mem_singleton_self _⟩

/-- Along the copies behind an instruction, other registers stay as they are. -/
theorem run_returns_of_notMem (absent : ∀ copy ∈ pending, copy.value ≠ r) :
    arith.execute (pending.map PendingCopy.line) cs r = cs r := by
  refine run_of_notMem fun inst mem written => ?_
  obtain ⟨_, isLine, rfl⟩ := mem_map.mp mem
  obtain ⟨copy, isMem, rfl⟩ := mem_map.mp isLine
  exact absent copy isMem (mem_singleton.mp written).symm

theorem mem_zip_of_place {α β : Type} {front : List α} {b : List β} {i : Nat} {one : α}
    {partner : β} (isOne : front[i]? = some one) (isPartner : b[i]? = some partner) :
    (one, partner) ∈ front.zip b :=
  mem_of_getElem? (getElem?_zip_eq_some.mpr ⟨isOne, isPartner⟩)

/-- A register that is not put back is written as the original instruction writes it. -/
theorem Redirects.write_eq (redirects : Redirects orig cur pending) (distinct : orig.dests.Nodup)
    {values : List UInt32} (notValue : ∀ copy ∈ pending, copy.value ≠ r)
    (notHolder : ∀ copy ∈ pending, copy.holder ≠ r) (same : other r = cs r) :
    other.write (cur.dests.zip values) r = cs.write (orig.dests.zip values) r := by
  have paired : ∀ i : Nat, orig.dests[i]? = some r ↔ cur.dests[i]? = some r := by
    intro i
    constructor
    · intro isDest
      obtain ⟨bound, _⟩ := List.getElem?_eq_some_iff.mp isDest
      have isDest' := getElem?_eq_getElem (redirects.length ▸ bound)
      rcases redirects.each _ (mem_zip_of_place isDest isDest') with kept | ⟨copy, mem, isCopy⟩
      · exact isDest'.trans (congrArg some kept)
      · exact absurd (congrArg Prod.fst isCopy).symm (notValue copy mem)
    · intro isDest'
      obtain ⟨bound, _⟩ := List.getElem?_eq_some_iff.mp isDest'
      have isDest := getElem?_eq_getElem (redirects.length ▸ bound)
      rcases redirects.each _ (mem_zip_of_place isDest isDest') with kept | ⟨copy, mem, isCopy⟩
      · exact isDest.trans (congrArg some kept.symm)
      · exact absurd (congrArg Prod.snd isCopy).symm (notHolder copy mem)
  by_cases written : ∃ v, (r, v) ∈ orig.dests.zip values
  · obtain ⟨v, isMem⟩ := written
    obtain ⟨i, atPlace⟩ := getElem?_of_mem isMem
    obtain ⟨isDest, isValue⟩ := getElem?_zip_eq_some.mp atPlace
    rw [write_zip distinct isMem, write_zip redirects.distinct
      (mem_zip_of_place ((paired i).mp isDest) isValue)]
  · rw [write_of_notMem, write_of_notMem]
    · exact same
    · intro isMem
      obtain ⟨entry, mem, rfl⟩ := mem_map.mp isMem
      exact written ⟨entry.2, mem⟩
    · intro isMem
      obtain ⟨⟨_, v⟩, mem, rfl⟩ := mem_map.mp isMem
      obtain ⟨i, atPlace⟩ := getElem?_of_mem mem
      obtain ⟨isDest, isValue⟩ := getElem?_zip_eq_some.mp atPlace
      exact written ⟨v, mem_zip_of_place ((paired i).mpr isDest) isValue⟩

/-- A register is put back from one register only. -/
theorem Redirects.single (redirects : Redirects orig cur pending) (distinct : orig.dests.Nodup) :
    ∀ copy ∈ pending, ∀ copy' ∈ pending, copy.value = copy'.value → copy.holder = copy'.holder :=
  fun copy mem copy' mem' same => snd_eq_of_mem_zip distinct (redirects.listed copy mem)
    (same ▸ redirects.listed copy' mem')

/-- When the runs of an instruction were handled, it and the copies behind it do what the original
instruction does. -/
theorem Matches.settles (regular : orig.Regular) (own : ∀ dest ∈ orig.dests, origin.Own dest)
    (redirects : Redirects orig cur pending)
    (holders : ∀ copy ∈ pending, ¬ origin.Own copy.holder)
    (fits : Matches arith origin walk orig cur cs other) :
    origin.Agrees (arith.step cs orig)
      (arith.execute (pending.map PendingCopy.line) (arith.step other cur)) := by
  intro r isOwn
  have values : ∀ copy ∈ pending, origin.Own copy.value := fun copy mem =>
    own _ (of_mem_zip (redirects.listed copy mem)).1
  rw [step, step, fits.computes]
  by_cases putBack : ∃ copy ∈ pending, copy.value = r
  · obtain ⟨copy, mem, rfl⟩ := putBack
    rw [run_returns values holders (redirects.single regular.distinct) mem]
    obtain ⟨i, atPlace⟩ := getElem?_of_mem (redirects.listed copy mem)
    obtain ⟨isValue, isHolder⟩ := getElem?_zip_eq_some.mp atPlace
    have bound : i < (arith.results orig (orig.sources.map (arith.read cs))).length := by
      rw [length_results regular (redirects.opcode (ne_nil_of_mem mem))]
      exact lt_of_getElem? isValue
    have isResult := getElem?_eq_getElem bound
    rw [write_zip redirects.distinct (mem_zip_of_place isHolder isResult),
      write_zip regular.distinct (mem_zip_of_place isValue isResult)]
  · rw [run_returns_of_notMem fun copy mem same => putBack ⟨copy, mem, same⟩]
    exact redirects.write_eq regular.distinct (fun copy mem same => putBack ⟨copy, mem, same⟩)
      (fun copy mem same => holders copy mem (same ▸ isOwn)) (fits.agrees r isOwn)

/-! ### Following a walk -/

/-- The lines that were visited do what the lines of the origin do, and the known copies are
true. -/
def Stands.Follows (arith : Arithmetic) (origin : Origin) (walk : Walk) (scene : Scene)
    (plain : List Line) : Prop :=
  ∀ cs other, origin.Agrees cs other → arith.Held scene.copies other →
    origin.Agrees (arith.execute scene.before cs) (arith.execute (scene.front ++ plain) other) ∧
      walk.tracking.Truthful arith (arith.execute scene.front other)

/-- The lines in front of the visited instruction do what the lines of the origin do, and the
instruction computes what the original one computes. -/
structure Visits.Follows (arith : Arithmetic) (origin : Origin) (walk : Walk) (scene : Scene)
    (orig cur : Instruction) (pending : List PendingCopy) : Prop where
  redirects : Redirects orig cur pending
  fits : ∀ contents other, origin.Agrees contents other → arith.Held scene.copies other →
    Matches arith origin walk orig cur (arith.execute scene.before contents)
      (arith.execute scene.front other)

theorem Stands.Follows.visits {todo : List Line} (regular : orig.Regular)
    (stands : Stands origin base blk walk scene []) (head : scene.todo = (k, orig) :: todo)
    (follows : Stands.Follows arith origin walk scene []) :
    Visits.Follows arith origin walk { scene with todo := todo } orig orig [] := by
  refine ⟨redirects_self regular.distinct, fun cs one agrees held => ?_⟩
  obtain ⟨agrees', truthful⟩ := follows cs one agrees held
  rw [append_nil] at agrees'
  refine ⟨agrees', truthful, congrArg (arith.results orig) ?_⟩
  refine map_congr_left fun source isMem => agrees'.read ?_
  have mem : (k, orig) ∈ origin.code blk := by
    rw [stands.source, head]
    exact mem_append_cons_self
  exact origin.noted blk _ mem source (mem_append_right _ isMem)

/-- What is copied in the preamble is true at the instruction that is visited. -/
theorem Visits.held (regular : origin.Regular spec) (body : blk ∈ origin.order)
    (visits : Visits origin base blk k walk scene orig cur pending)
    (held : arith.Held scene.copies other) :
    arith.Held scene.copies (arith.execute scene.front other) :=
  regular.held body visits.grounded.hoisted visits.front held

/-- A run is handled. -/
theorem Visits.Follows.mends {scene' : Scene} (regular : origin.Regular spec)
    (holds : arith.Holds spec) (body : blk ∈ origin.order)
    (visits : Visits origin base blk k walk scene orig cur pending)
    (follows : Visits.Follows arith origin walk scene orig cur pending)
    (untouched : run.side = .dest → cur = orig) (progress : Progress orig cur pending (run :: runs))
    (found : run.operands cur = .ok ops)
    (mends : Mends ⟨spec.target, options, level⟩ walk run cur ops next placed hoists
      (lines.map Prod.snd) ch post) (same : MachineSpec.runs ch = MachineSpec.runs cur)
    (grown : next ≤ after.program.nextTemp) (keeps : walk.program.Keeps after.program)
    (gains : walk.Gains placed hoists after)
    (visits' : Visits origin base blk k after scene' orig ch (pending ++ post))
    (pre : scene'.before = scene.before) (front : scene'.front = scene.front ++ lines)
    (copies : scene'.copies = scene.copies ++ hoists) :
    Visits.Follows arith origin after scene' orig ch (pending ++ post) := by
  have listed := progress.listed run mem_cons_self
  refine ⟨follows.redirects.mends
    (fun side => ⟨untouched side, (progress.opens_of_dest side).pending⟩) listed found mends same,
    fun cs one agrees held => ?_⟩
  have stems := visits'.front
  have hoisted := visits'.grounded.hoisted
  have held' := visits'.held regular body held
  rw [front] at stems held' ⊢
  rw [copies] at held held' hoisted stems
  rw [execute_append] at held' ⊢
  rw [pre]
  exact (follows.fits cs one agrees fun pair mem =>
    held pair (mem_append_left _ mem)).mend (regular.lines blk body _ visits.member)
    holds regular.constants visits follows.redirects.runs progress found mends grown keeps gains
    (regular.held body hoisted (fun line mem => stems line (mem_append_left _ mem)) held)
    held'

section

variable (regular : orig.Regular) (visits : Visits origin base blk k walk scene orig cur pending)
  (follows : Visits.Follows arith origin walk scene orig cur pending)

include regular visits follows

/-- An instruction and the copies behind it do what the original one does. -/
theorem Visits.Follows.agrees (agrees : origin.Agrees cs other)
    (held : arith.Held scene.copies other) :
    origin.Agrees (arith.execute (scene.before ++ [(k, orig)]) cs)
      (arith.execute (pending.map PendingCopy.line)
        (arith.step (arith.execute scene.front other) cur)) := by
  rw [execute_append]
  exact (follows.fits cs other agrees held).settles regular
    (fun dest isMem => origin.noted blk _ visits.member dest (mem_append_left _ isMem))
    follows.redirects fun copy mem => (visits.pending copy mem).taken.1

/-- All runs of an instruction were handled. -/
theorem Visits.Follows.concludes
    (learns : Learns walk (cur.dests ++ pending.map (·.value)) (pending.map (·.pair)) false after) :
    Stands.Follows arith origin after { scene with
      before := scene.before ++ [(k, orig)]
      front := scene.front ++ (k, cur) :: pending.map PendingCopy.line } [] := by
  intro cs one agrees held
  have values : ∀ copy ∈ pending, origin.Own copy.value := fun copy mem =>
    (visits.pending copy mem).writes.own
  have holders : ∀ copy ∈ pending, ¬ origin.Own copy.holder := fun copy mem =>
    (visits.pending copy mem).taken.1
  have redirects := follows.redirects
  simp only [append_nil]
  rw [execute_append scene.front]
  refine ⟨follows.agrees regular visits agrees held,
    learns.truthful (follows.fits cs one agrees held).truthful (fun inst isMem dest
      written => ?_) fun pair isMem => ?_⟩
  · obtain ⟨line, isLine, rfl⟩ := mem_map.mp isMem
    rcases mem_cons.mp isLine with rfl | isCopy
    · exact mem_append_left _ written
    · obtain ⟨copy, mem, rfl⟩ := mem_map.mp isCopy
      rw [mem_singleton.mp written]
      exact mem_append_right _ (mem_map_of_mem mem)
  · obtain ⟨copy, mem, rfl⟩ := mem_map.mp isMem
    have isDest := (of_mem_zip (redirects.listed copy mem)).1
    refine ⟨isVirtual_of_not_own (holders copy mem), ?_⟩
    show arith.execute (pending.map PendingCopy.line)
        (arith.step (arith.execute scene.front one) cur) copy.holder = _
    have kept : ∀ copy' ∈ pending, copy'.value ≠ copy.holder := fun copy' mem' same =>
      holders copy mem (same ▸ values copy' mem')
    rw [read_of_not_constant (regular.writable copy.value isDest), run_returns_of_notMem kept]
    exact (run_returns values holders (redirects.single regular.distinct) mem).symm

/-- A copy is expanded into moves. -/
theorem Visits.Follows.expands {code' : BlockId → List Line}
    (relaxes : relax cur run = .ok (some (.expand (lines.map Prod.snd))))
    (gains : walk.Gains [] [] after) :
    Stands.Follows arith origin { after with deferred := after.deferred ++ pending }
      { scene with code := code', before := scene.before ++ [(k, orig)] }
      (lines ++ pending.map PendingCopy.line) := by
  intro cs one agrees held
  obtain ⟨opcode, apart, sequence⟩ := relax_eq_expand relaxes
  have truthful : after.tracking.Truthful arith (arith.run [] (arith.execute scene.front one)) :=
    gains.truthful (follows.fits cs one agrees held).truthful (forall_mem_nil _) (forall_mem_nil _)
  refine ⟨?_, truthful⟩
  have moves : arith.execute lines (arith.execute scene.front one) =
      arith.step (arith.execute scene.front one) cur := by
    rw [← run_splitIntoMoves opcode apart, ← sequence]
    rfl
  simp only [execute_append _ (lines ++ _), execute_append lines]
  rw [moves]
  exact follows.agrees regular visits agrees held

end

/-- A regular sample is never narrowed. -/
theorem relax_ne_narrow (regular : orig.Regular) (narrowed : Instruction) :
    relax orig run ≠ .ok (some (.narrow narrowed)) := by
  intro relaxes
  obtain ⟨⟨isSample, _⟩, narrows, _⟩ := relax_eq_narrow relaxes
  have all := regular.channels isSample
  cases (narrowSample_eq_none fun i lt _ => all i lt).symm.trans narrows

/-- A line without runs is left as it is. -/
theorem Stands.Follows.concludes {plain : List Line} {returned : List PendingCopy}
    (regular : origin.Regular spec) (body : blk ∈ origin.order)
    (follows : Stands.Follows arith origin walk scene ((k, inst) :: plain))
    (moves : ∀ copy ∈ returned, origin.Returns walk.program scene.copies blk copy ∧
      inst = .move copy.value copy.holder)
    (learns : Learns walk (inst.dests ++ returned.map (·.value))
      (returned.map (·.pair)) false after) :
    Stands.Follows arith origin after { scene with front := scene.front ++ [(k, inst)] } plain := by
  intro cs one agrees held
  obtain ⟨agrees', truthful⟩ := follows cs one agrees held
  refine ⟨?_, ?_⟩
  · simp only [← append_cons]
    exact agrees'
  · rw [execute_append]
    refine learns.truthful truthful (fun one isMem dest written => ?_) fun pair isMem => ?_
    · cases mem_singleton.mp isMem
      exact mem_append_left _ written
    · obtain ⟨copy, mem, rfl⟩ := mem_map.mp isMem
      obtain ⟨returns, rfl⟩ := moves copy mem
      obtain ⟨line, isLine, isDest⟩ := returns.writes
      have virt := isVirtual_of_not_own returns.taken.1
      have apart : copy.holder ≠ copy.value := fun same =>
        returns.taken.1 (same ▸ returns.writes.own)
      refine ⟨virt, ?_⟩
      rw [read_of_not_constant ((regular.lines blk body line isLine).writable _ isDest)]
      show arith.step _ (.move copy.value copy.holder) copy.holder =
        arith.step _ (.move copy.value copy.holder) copy.value
      rw [step_move, set_self, set_of_ne _ _ apart, read_of_virtual virt]

end Walk

end RegisterChains

/-
This file says what a repair does to the lines of a block, and which registers it takes. A run
that is mended by copies reads or writes, in the place of each member, the member itself, a
register that is known to hold the same value, or a register that nobody needs: a fresh one, or
an owned copy that the instruction does not name. Copies are made into registers of the last kind
only, and each of them is put in one place.
-/

import RegisterChains.Proofs.Chain.Meeting
import RegisterChains.Proofs.Chain.Merging
import RegisterChains.Proofs.Operands
import RegisterChains.Proofs.Repair.Lines

namespace RegisterChains

open ChainGraph List MachineSpec

/-! ### Runs that hold -/

namespace ChainGraph

variable {g after : ChainGraph} {inst : Instruction} {run : OperandRun}

/-- The operands of a run are as they have to be. -/
def Serves (g : ChainGraph) (run : OperandRun) (inst : Instruction) : Prop :=
  ∃ ops, run.operands inst = .ok ops ∧ g.Answers ops run.parity

/-- Every run of an instruction is as it has to be. -/
def ServesAll (g : ChainGraph) (inst : Instruction) : Prop :=
  ∀ run ∈ MachineSpec.runs inst, g.Serves run inst

theorem Serves.refines (serves : g.Serves run inst) (refines : g.Refines after) :
    after.Serves run inst := by
  obtain ⟨ops, found, answers⟩ := serves
  exact ⟨ops, found, answers.refines refines⟩

theorem servesAll_of_plain (plain : MachineSpec.runs inst = []) : g.ServesAll inst := by
  intro run no
  rw [plain] at no
  cases no

theorem ServesAll.refines (serves : g.ServesAll inst) (refines : g.Refines after) :
    after.ServesAll inst :=
  fun run mem => (serves run mem).refines refines

/-- Copies that are made together serve their run if the registers written are consecutive. -/
theorem servesAll_copyInstruction {copy : Instruction} {pairs : List (Register × Register)}
    (answers : pairs ≠ [] → g.Answers (pairs.map Prod.snd) .any)
    (isCopy : Walk.copyInstruction pairs = .ok copy) : g.ServesAll copy := by
  rcases Walk.copyInstruction_cases isCopy with ⟨_, _, _, rfl⟩ | rfl
  · exact servesAll_of_plain (runs_move ..)
  · intro run mem
    rw [runs_pack] at mem
    split at mem
    · next wide =>
      rw [mem_singleton.mp mem]
      refine ⟨pairs.map Prod.snd, OperandRun.operands_eq_ok.mpr ⟨[], [], ?_, rfl, rfl⟩, ?_⟩
      · exact (append_nil _).symm
      · refine answers fun empty => ?_
        rw [empty] at wide
        cases wide
    · cases mem

end ChainGraph

namespace Walk

variable {setting : Setting} {place next : UInt32} {k : InstructionId} {run : OperandRun}
  {walk after : Walk} {inst ch : Instruction} {ops assigned : List Register}
  {placed hoists pairs : List (Register × Register)} {pair : Register × Register}
  {made : List Instruction} {index : Nat} {op : Register}

/-! ### The register of one member -/

/-- The numbers from the next fresh one on were handed out. -/
def Handed (walk : Walk) (next : UInt32) (r : Register) : Prop :=
  ∃ number, r = .temp number ∧ walk.program.nextTemp ≤ number ∧ number < next

/-- Nobody needs what a register holds while an instruction is mended. -/
def Vacant (walk : Walk) (inst : Instruction) (next : UInt32) (r : Register) : Prop :=
  walk.Handed next r ∨ (∃ v, walk.tracking.Knows v r true) ∧ r ∉ inst.sources ∧ r ∉ inst.dests

/-- The register that a choice gives to a member. -/
inductive StandsIn (walk : Walk) (run : OperandRun) (inst : Instruction) (next : UInt32)
    (op : Register) : Choice → Register → Prop where
  | keep : StandsIn walk run inst next op .keep op
  | reuse {others other} : run.side = .source → walk.equivalents op = .ok others →
    other ∈ others → StandsIn walk run inst next op (.reuse other) other
  | recycle {other} : walk.Vacant inst next other →
    StandsIn walk run inst next op (.recycle other) other
  | fresh {other} : walk.Handed next other →
    StandsIn walk run inst next op .fresh other

theorem vacant_of_recyclable {wanted : List Register} {other : Register} (next : UInt32)
    (mem : other ∈ walk.recyclable place inst wanted) : walk.Vacant inst next other := by
  obtain ⟨dead, free⟩ := mem_filter.mp (mem_of_mem_take mem)
  obtain ⟨⟨id, record⟩, listed, rfl⟩ := mem_map.mp dead
  obtain ⟨stored, owned⟩ := mem_filter.mp listed
  simp only [Bool.and_eq_true, Bool.not_eq_true', contains_eq_mem,
    decide_eq_false_iff_not] at free owned
  exact .inr ⟨⟨record.value, id, record, Pool.mem_toList.mp stored, rfl, rfl, owned.1⟩, free.1.1,
    free.1.2⟩

theorem standsIn_of_assigns {wanted : List Register} {choices : List Choice}
    {numbers : List UInt32} (offers : List.Forall₂ (Offer walk place inst run wanted) ops choices)
    (assigns : Assigns (ops.zip choices) numbers assigned)
    (bounds : ∀ number ∈ numbers, walk.program.nextTemp ≤ number ∧ number < next)
    (mem : ops[index]? = some op) :
    ∃ choice r, choices[index]? = some choice ∧ assigned[index]? = some r ∧
      StandsIn walk run inst next op choice r := by
  induction offers generalizing numbers assigned index with
  | nil => cases mem
  | @cons one choice ops choices offer _ ih =>
    -- The first member takes its register, and the others share the numbers that are left.
    obtain ⟨r, rest, left, rfl, stands, others, fewer⟩ : ∃ r rest left, assigned = r :: rest ∧
          StandsIn walk run inst next one choice r ∧
          Assigns (ops.zip choices) left rest ∧ ∀ number ∈ left, number ∈ numbers := by
      cases assigns with
      | keep others => exact ⟨_, _, _, rfl, .keep, others, fun _ isMem => isMem⟩
      | reuse others =>
        cases offer with
        | reuse side same isMem _ =>
          exact ⟨_, _, _, rfl, .reuse side same isMem, others, fun _ isMem => isMem⟩
      | recycle others =>
        cases offer with
        | recycle dead =>
          exact ⟨_, _, _, rfl, .recycle (vacant_of_recyclable next dead), others,
            fun _ isMem => isMem⟩
      | fresh others =>
        exact ⟨_, _, _, rfl, .fresh ⟨_, rfl, bounds _ mem_cons_self⟩, others,
          fun _ isMem => mem_cons_of_mem _ isMem⟩
    cases index with
    | zero =>
      cases mem
      exact ⟨choice, r, rfl, rfl, stands⟩
    | succ index =>
      exact ih others (fun number isMem => bounds number (fewer number isMem)) mem

/-! ### The registers of a run -/

/-- The registers that the members of a run end up with, when some of them are copied in place
and others in the preamble. -/
structure Supplies (walk : Walk) (run : OperandRun) (inst : Instruction) (next : UInt32)
    (ops assigned : List Register) (placed hoists : List (Register × Register)) : Prop where
  length : assigned.length = ops.length
  distinct : assigned.Nodup
  each : ∀ pair ∈ ops.zip assigned, pair.2 = pair.1 ∨
    (run.side = .source ∧ ∃ others, walk.equivalents pair.1 = .ok others ∧ pair.2 ∈ others) ∨
    pair ∈ placed ∨ pair ∈ hoists
  vacant : ∀ pair ∈ placed, pair ∈ ops.zip assigned ∧ walk.Vacant inst next pair.2
  handed : ∀ pair ∈ hoists, pair ∈ ops.zip assigned ∧ walk.Handed next pair.2 ∧
    walk.program.isUniform pair.1 = true ∧ walk.program.preamble.isSome = true
  apart : ∀ pair ∈ placed, ∀ other ∈ hoists, pair.2 ≠ other.2

section

variable (supplies : Supplies walk run inst next ops assigned placed hoists)

include supplies

theorem Supplies.of_place {r : Register} (isRegister : assigned[index]? = some r) :
    ∃ op, ops[index]? = some op ∧ (op, r) ∈ ops.zip assigned := by
  have bound : index < ops.length := supplies.length ▸ lt_of_getElem? isRegister
  have isOperand := getElem?_eq_getElem bound
  exact ⟨_, isOperand, mem_of_getElem? (getElem?_zip_eq_some.mpr ⟨isOperand, isRegister⟩)⟩

theorem Supplies.eq_of_snd {other : Register × Register} (mem : pair ∈ ops.zip assigned)
    (mem' : other ∈ ops.zip assigned) (same : pair.2 = other.2) : pair = other := by
  obtain ⟨index, atPlace⟩ := getElem?_of_mem mem
  obtain ⟨index', placed'⟩ := getElem?_of_mem mem'
  obtain ⟨isOp, given⟩ := getElem?_zip_eq_some.mp atPlace
  obtain ⟨isOp', given'⟩ := getElem?_zip_eq_some.mp placed'
  obtain rfl := index_unique supplies.distinct given (same ▸ given')
  exact Prod.ext (Option.some_inj.mp (isOp.symm.trans isOp')) same

end

section

variable {batches : List Batch} (copied : Copied pairs batches made placed hoists)

include copied

/-- The pairs of batches that are copied somewhere. -/
theorem Copied.of_covers {batch : Batch} (mem : batch ∈ batches) (covers : batch.Covers index)
    (found : pairs[index]? = some pair) : pair ∈ placed ∨ pair ∈ hoists := by
  induction copied with
  | nil => cases mem
  | hoist isPair _ ih =>
    rcases mem_cons.mp mem with rfl | later
    · cases covers
      cases found.symm.trans isPair
      exact .inr mem_cons_self
    · exact (ih later).imp_right (mem_cons_of_mem _)
  | @inPlace start _ _ _ _ _ _ _ _ ih =>
    rcases mem_cons.mp mem with rfl | later
    · obtain ⟨lo, hi⟩ := covers
      refine .inl (mem_append_left _ (mem_of_getElem? (i := index - start) ?_))
      rw [getElem?_take_of_lt (by omega), getElem?_drop, Nat.add_sub_cancel' lo]
      exact found
    · exact (ih later).imp_left (mem_append_right _)

theorem Copied.of_placed (mem : pair ∈ placed) :
    ∃ batch ∈ batches, batch.isInPlace = true ∧ ∃ index, batch.Covers index ∧
      pairs[index]? = some pair := by
  induction copied with
  | nil => cases mem
  | hoist _ _ ih =>
    obtain ⟨batch, isMem, found⟩ := ih mem
    exact ⟨batch, mem_cons_of_mem _ isMem, found⟩
  | @inPlace start width _ _ _ _ _ _ _ ih =>
    rcases mem_append.mp mem with here | later
    · obtain ⟨index, atPlace⟩ := getElem?_of_mem here
      rw [getElem?_take] at atPlace
      split at atPlace
      · next lt =>
        rw [getElem?_drop] at atPlace
        exact ⟨_, mem_cons_self, rfl, start + index,
          ⟨Nat.le_add_right .., Nat.add_lt_add_left lt _⟩, atPlace⟩
      · cases atPlace
    · obtain ⟨batch, isMem, found⟩ := ih later
      exact ⟨batch, mem_cons_of_mem _ isMem, found⟩

theorem Copied.of_hoists (mem : pair ∈ hoists) :
    ∃ index, .hoist index ∈ batches ∧ pairs[index]? = some pair := by
  induction copied with
  | nil => cases mem
  | @hoist index _ _ _ _ _ isPair _ ih =>
    rcases mem_cons.mp mem with rfl | later
    · exact ⟨index, mem_cons_self, isPair⟩
    · obtain ⟨index, isMem, found⟩ := ih later
      exact ⟨index, mem_cons_of_mem _ isMem, found⟩
  | inPlace _ _ ih =>
    obtain ⟨index, isMem, found⟩ := ih mem
    exact ⟨index, mem_cons_of_mem _ isMem, found⟩

end

/-- The copies of a run are gathered, and only uniform values are copied in the preamble, if
there is one. -/
theorem batches_eq_gather (setting : Setting) (prog : Program) (run : OperandRun)
    (ops : List Register) (choices : List Choice) :
    ∃ width hoistable, batches setting prog run ops choices =
      Batch.gather width hoistable choices ∧ ∀ index, hoistable index = true →
        prog.preamble.isSome = true ∧ (ops[index]?).any prog.isUniform = true :=
  ⟨_, _, rfl, fun _ allowed =>
    have both := (Bool.and_eq_true _ _).mp allowed
    ⟨((Bool.and_eq_true _ _).mp both.1).2, both.2⟩⟩

section

variable {plan : Plan} {next : UInt32} {g : ChainGraph}

theorem Carried.standsIn (planned : Planned setting place run walk inst ops plan)
    (carried : Carried k run walk inst ops plan assigned ch next g) (mem : ops[index]? = some op) :
    ∃ choice r, plan.choices[index]? = some choice ∧ assigned[index]? = some r ∧
      StandsIn walk run inst next op choice r := by
  obtain ⟨wanted, _, offers⟩ := planned.offered
  obtain ⟨numbers, _, bounds, assigns⟩ := carried.assigns
  exact standsIn_of_assigns offers assigns bounds mem

theorem Carried.length (found : run.operands inst = .ok ops)
    (carried : Carried k run walk inst ops plan assigned ch next g) :
    assigned.length = ops.length := by
  obtain ⟨_, _, cuts⟩ := OperandRun.operands_eq_ok.mp found
  exact (cuts.replace_eq_ok.mp carried.replaced).1.trans cuts.count.symm

section

variable (found : run.operands inst = .ok ops)
  (planned : Planned setting place run walk inst ops plan)
  (carried : Carried k run walk inst ops plan assigned ch next g)

include found planned carried

/-- A run that is mended by copies in front of its instruction. -/
theorem Carried.supplies (copied : Copied (ops.zip assigned) plan.batches made placed hoists) :
    Supplies walk run inst next ops assigned placed hoists := by
  obtain ⟨fit, fits, _⟩ := carried.commits
  obtain ⟨width, hoistable, gathers, uniform⟩ := batches_eq_gather setting walk.program run
    ops plan.choices
  rw [planned.batches, gathers] at copied
  have gathered := Batch.gather_spec width hoistable plan.choices
  have chosen : ∀ {index : Nat} {pair},
      (ops.zip assigned)[index]? = some pair →
      ∃ choice, plan.choices[index]? = some choice ∧
        StandsIn walk run inst next pair.1 choice pair.2 := by
    intro index pair atPlace
    obtain ⟨isOp, given⟩ := getElem?_zip_eq_some.mp atPlace
    obtain ⟨choice, r, isChoice, isRegister, stands⟩ := carried.standsIn planned isOp
    cases given.symm.trans isRegister
    exact ⟨choice, isChoice, stands⟩
  refine ⟨carried.length found, nodup_of_fit fits, fun pair isMem => ?_,
    fun pair isMem => ?_, fun pair isMem => ?_, fun pair isMem other isMem' same => ?_⟩
  · obtain ⟨op, r⟩ := pair
    obtain ⟨index, atPlace⟩ := getElem?_of_mem isMem
    obtain ⟨choice, isChoice, stands⟩ := chosen atPlace
    have copies : choice.needsCopy = true → (op, r) ∈ placed ∨ (op, r) ∈ hoists := by
      intro needs
      obtain ⟨batch, mem, covers⟩ := (gathered.1 index).mpr ⟨choice, isChoice, needs⟩
      exact copied.of_covers mem covers atPlace
    cases stands with
    | keep => exact .inl rfl
    | reuse side same isOther => exact .inr (.inl ⟨side, _, same, isOther⟩)
    | recycle _ | fresh _ => exact .inr (.inr (copies rfl))
  · obtain ⟨op, r⟩ := pair
    obtain ⟨batch, mem, _, index, covers, atPlace⟩ := copied.of_placed isMem
    refine ⟨mem_of_getElem? atPlace, ?_⟩
    obtain ⟨choice, isChoice, stands⟩ := chosen atPlace
    obtain ⟨choice', isChoice', needs⟩ := (gathered.1 index).mp ⟨batch, mem, covers⟩
    cases isChoice.symm.trans isChoice'
    cases stands with
    | keep | reuse => cases needs
    | recycle vacant => exact vacant
    | fresh handed => exact .inl handed
  · obtain ⟨index, mem, atPlace⟩ := copied.of_hoists isMem
    refine ⟨mem_of_getElem? atPlace, ?_⟩
    obtain ⟨choice, isChoice, stands⟩ := chosen atPlace
    obtain ⟨isFresh, allowed⟩ := gathered.2 index mem
    cases isChoice.symm.trans isFresh
    obtain ⟨isOp, _⟩ := getElem?_zip_eq_some.mp atPlace
    obtain ⟨hasPreamble, isUniform⟩ := uniform index allowed
    rw [isOp] at isUniform
    cases stands with
    | fresh handed => exact ⟨handed, isUniform, hasPreamble⟩
  · -- Two members with one register are the same member, which is copied in one place only.
    obtain ⟨batch, mem, inPlace, index, covers, atPlace⟩ := copied.of_placed isMem
    obtain ⟨index', mem', placed'⟩ := copied.of_hoists isMem'
    obtain ⟨_, given⟩ := getElem?_zip_eq_some.mp atPlace
    obtain ⟨_, given'⟩ := getElem?_zip_eq_some.mp placed'
    obtain rfl := index_unique (nodup_of_fit fits) given (same ▸ given')
    exact Batch.gather_apart _ _ _ mem' mem inPlace covers

/-- A run that is mended by copies behind its instruction. -/
theorem Carried.returns {copies : List PendingCopy}
    (pairs : copies.map (·.pair) = ((ops.zip (assigned.zip plan.choices)).filter isPutBack).map
      fun mem => (mem.1, mem.2.1)) :
    Supplies walk run inst next ops assigned (copies.map (·.pair)) [] := by
  obtain ⟨fit, fits, _⟩ := carried.commits
  have listed : ∀ {index : Nat} {pair choice},
      (ops.zip assigned)[index]? = some pair →
      plan.choices[index]? = some choice →
      (pair.1, pair.2, choice) ∈ ops.zip (assigned.zip plan.choices) := by
    intro index pair choice atPlace isChoice
    obtain ⟨isOp, given⟩ := getElem?_zip_eq_some.mp atPlace
    exact mem_of_getElem?
      (getElem?_zip_eq_some.mpr ⟨isOp, getElem?_zip_eq_some.mpr ⟨given, isChoice⟩⟩)
  refine ⟨carried.length found, nodup_of_fit fits, fun pair isMem => ?_,
    fun pair isMem => ?_, forall_mem_nil _,
    fun _ _ _ no => absurd no not_mem_nil⟩
  · obtain ⟨op, r⟩ := pair
    obtain ⟨index, atPlace⟩ := getElem?_of_mem isMem
    obtain ⟨isOp, given⟩ := getElem?_zip_eq_some.mp atPlace
    obtain ⟨choice, register', isChoice, isRegister, stands⟩ := carried.standsIn planned isOp
    cases given.symm.trans isRegister
    have returned : choice.needsCopy = true → (op, r) ∈ copies.map (·.pair) := by
      intro needs
      rw [pairs]
      exact mem_map.mpr ⟨_, mem_filter.mpr ⟨listed atPlace isChoice, needs⟩, rfl⟩
    cases stands with
    | keep => exact .inl rfl
    | reuse side same isOther => exact .inr (.inl ⟨side, _, same, isOther⟩)
    | recycle _ | fresh _ => exact .inr (.inr (.inl (returned rfl)))
  · rw [pairs] at isMem
    obtain ⟨⟨op, r, choice⟩, mem, rfl⟩ := mem_map.mp isMem
    obtain ⟨isMember, needs⟩ := mem_filter.mp mem
    obtain ⟨index, atPlace⟩ := getElem?_of_mem isMember
    obtain ⟨isOp, both⟩ := getElem?_zip_eq_some.mp atPlace
    obtain ⟨given, isChoice⟩ := getElem?_zip_eq_some.mp both
    refine ⟨mem_of_getElem? (getElem?_zip_eq_some.mpr ⟨isOp, given⟩), ?_⟩
    obtain ⟨choice', register', isChoice', isRegister, stands⟩ := carried.standsIn planned isOp
    cases isChoice.symm.trans isChoice'
    cases given.symm.trans isRegister
    change StandsIn walk run inst next op choice r at stands
    cases stands with
    | keep | reuse => cases needs
    | recycle vacant => exact vacant
    | fresh handed => exact .inl handed

end

end

/-! ### The lines of a mended instruction -/

theorem Copied.serves {batches : List Batch} {g : ChainGraph} {parity : Parity}
    (copied : Copied pairs batches made placed hoists)
    (answers : g.Answers (pairs.map Prod.snd) parity) : ∀ copy ∈ made, g.ServesAll copy := by
  induction copied with
  | nil =>
    intro _ no
    cases no
  | hoist _ _ ih => exact ih
  | @inPlace start width _ _ _ _ _ isCopy _ ih =>
    intro copy mem
    rcases mem_cons.mp mem with rfl | later
    · refine servesAll_copyInstruction (fun filled => ?_) isCopy
      have split : pairs.map Prod.snd = (pairs.take start).map Prod.snd ++
          ((pairs.drop start).take width).map Prod.snd ++
          ((pairs.drop start).drop width).map Prod.snd := by
        rw [← map_append, ← map_append, append_assoc, take_append_drop, take_append_drop]
      exact answers.part split fun empty => filled (map_eq_nil_iff.mp empty)
    · exact ih copy later

/-- Constants that fit are hardware registers. -/
theorem Substituted.answers {constants : List Register} (sound : walk.graph.Sound)
    (substituted : Substituted setting run walk inst ops constants ch) :
    walk.graph.Answers constants run.parity := by
  obtain ⟨fit, fits⟩ := substituted.fits
  refine ⟨?_, sound.accommodates_of_fit fits⟩
  obtain ⟨_, start, _, _, isConstants⟩ := substituted.values
  unfold constantsFrom at isConstants
  split at isConstants
  · cases isConstants
    cases count : List.range ops.length with
    | nil => exact meets_nil ..
    | cons i indices =>
      rw [count] at fits
      exact .inl (numeric_of_fit fits mem_cons_self rfl)
  · cases isConstants

/-- How an instruction changes so that one of its runs holds. The first two lists are the pairs
that are copied in front of it and in the preamble, then come the instructions that make the
former copies, the changed instruction, and the copies behind it. -/
inductive Mends (setting : Setting) (walk : Walk) (run : OperandRun) (inst : Instruction)
    (ops : List Register) (next : UInt32) :
    List (Register × Register) → List (Register × Register) → List Instruction → Instruction →
      List PendingCopy → Prop where
  | fits : Mends setting walk run inst ops next [] [] [] inst []
  | reordered {reordered changed g} : Reordered setting run walk inst ops reordered changed g →
    Mends setting walk run inst ops next [] [] [] changed []
  | substituted {constants changed} : Substituted setting run walk inst ops constants changed →
    Mends setting walk run inst ops next [] [] [] changed []
  | copiedIn {assigned batches made placed hoists changed} : run.side = .source →
    run.replace inst assigned = .ok changed →
    Copied (ops.zip assigned) batches made placed hoists →
    Supplies walk run inst next ops assigned placed hoists →
    Mends setting walk run inst ops next placed hoists made changed []
  | copiedOut {assigned changed} {copies : List PendingCopy} : run.side = .dest →
    run.replace inst assigned = .ok changed →
    Supplies walk run inst next ops assigned (copies.map (·.pair)) [] →
    Mends setting walk run inst ops next [] [] [] changed copies

theorem Gains.of_becomes {prog : Program} {g : ChainGraph} (becomes : walk.Becomes prog g after) :
    walk.Gains [] [] after where
  hoisted _ mem := .inl (becomes.hoisted ▸ mem)
  deferred _ mem := becomes.deferred ▸ mem
  knows v dest owned known := by
    obtain ⟨id, record, found, facts⟩ := known
    have found : after.cache.records.get? id = some record := found
    rw [becomes.cache] at found
    exact .inl ⟨⟨id, record, found, facts⟩, forall_mem_nil _⟩

/-- What handling a run does to the lines of a block. A run that is mended holds from then on, and
so do the runs of the copies in front of its instruction. -/
theorem Handled.mends {order : List BlockId} {code : BlockId → List Line} {blk : BlockId}
    {front rest : List Line} {fix : RunFix} {spec : MachineSpec} {options : Options}
    {level : Option Level} (sound : walk.tracking.Sound) (shown : walk.program.Shows order code)
    (body : blk ∈ order) (split : code blk = front ++ (k, inst) :: rest)
    (found : run.operands inst = .ok ops)
    (handled : Handled ⟨spec.target, options, level⟩ place k run walk inst ops fix after) :
    fix.Leaves
      (∃ narrowed code', relax inst run = .ok (some (.narrow narrowed)) ∧
        walk.Gains [] [] after ∧ walk.program.Reworks order code blk
          (front ++ (k, narrowed) :: rest) [] after.program code')
      (fun copies => ∃ next placed hoists lines ch code', next ≤ after.program.nextTemp ∧
        Mends ⟨spec.target, options, level⟩ walk run inst ops next placed hoists
          (lines.map Prod.snd) ch copies ∧ walk.Gains placed hoists after ∧
        walk.program.Reworks order code blk
          (front ++ lines ++ (k, ch) :: (copies.map PendingCopy.line ++ rest))
          (hoists.map hoistedMove) after.program code' ∧
        ∃ regs, Differs run inst regs ch ∧ after.graph.Answers regs run.parity ∧
          ∀ line ∈ lines, after.graph.ServesAll line.2) (fun resume => ∃ lines code',
        relax inst run = .ok (some (.expand (lines.map Prod.snd))) ∧
        walk.Gains [] [] after ∧ walk.program.Reworks order code blk (front ++ lines ++ rest) []
          after.program code' ∧ (∀ line ∈ lines, walk.program.instructions.size ≤ line.1.index) ∧
        resume = (lines ++ rest).head?.map Prod.fst) := by
  have apart := shown.preamble_ne body
  have keeps := (handled.extends sound).keeps
  have sets : ∀ {ch : Instruction}, after.program = walk.program.setInstruction k ch →
      ∃ code', walk.program.Reworks order code blk (front ++ [] ++ (k, ch) :: rest) [] after.program
        code' := by
    intro ch isAfter
    rw [append_nil]
    exact ⟨_, .of_update (isAfter ▸ shown.setInstruction _ split) apart keeps.preamble⟩
  cases handled with
  | fits fits commits becomes =>
    have reworks : walk.program.Reworks order code blk (front ++ [] ++ (k, inst) :: rest) []
        after.program code := by
      rw [becomes.program, append_nil, ← split]
      exact .refl shown
    exact ⟨after.program.nextTemp, [], [], [], inst, code, UInt32.le_refl _, .fits,
      .of_becomes becomes, reworks, ops, ⟨found, fun _ _ => rfl, rfl⟩,
      becomes.graph ▸ sound.graph.answers_of_commit fits commits, forall_mem_nil _⟩
  | reordered reordered becomes =>
    obtain ⟨code', reworks⟩ := sets becomes.program
    obtain ⟨_, _, rfl, _, reorders⟩ := reordered.order
    obtain ⟨fit, fits, commits⟩ := reordered.commits
    exact ⟨after.program.nextTemp, [], [], [], _, code', UInt32.le_refl _, .reordered reordered,
      .of_becomes becomes, reworks, _, differs_of_reorder found reorders,
      becomes.graph ▸ sound.graph.answers_of_commit fits commits, forall_mem_nil _⟩
  | substituted substituted becomes =>
    obtain ⟨code', reworks⟩ := sets becomes.program
    exact ⟨after.program.nextTemp, [], [], [], _, code', UInt32.le_refl _,
      .substituted substituted, .of_becomes becomes, reworks, _,
      differs_of_replace found substituted.replaced,
      becomes.graph ▸ substituted.answers sound.graph, forall_mem_nil _⟩
  | relaxed relaxed becomes =>
    cases relaxed with
    | narrowed relaxes =>
      obtain ⟨code', reworks⟩ := sets becomes.program
      rw [append_nil] at reworks
      exact ⟨_, code', relaxes, .of_becomes becomes, reworks⟩
    | expanded relaxes isNext replaces =>
      obtain ⟨lines, isKeys, rfl, fresh, shown'⟩ := shown.replace split replaces
      refine ⟨lines, _, relaxes, .of_becomes becomes,
        .of_update (becomes.program ▸ shown') apart keeps.preamble, fresh, ?_⟩
      cases (shown.nextOf_eq split).symm.trans isNext
      rw [← isKeys]
      cases lines <;> rfl
  | @copiedIn _ assigned _ _ _ _ _ side planned carried becomes copies =>
    have one := carried.extends sound becomes
    have set := becomes.shows_changed shown split
    obtain ⟨made, placed, hoists, lines, code', copied, rfl, gains, reworks⟩ :=
      copyIn_yields one.sound set body (Function.update_self ..) copies
    have grows := copyIn_extends one.sound copies
    have later : _ ≤ after.program.nextTemp := grows.keeps.nextTemp
    rw [becomes.program] at later
    obtain ⟨fit, fits, commits⟩ := carried.commits
    have answers : after.graph.Answers assigned run.parity :=
      (becomes.graph ▸ sound.graph.answers_of_commit fits commits).refines grows.refines
    have paired : after.graph.Answers ((ops.zip assigned).map Prod.snd) run.parity := by
      rwa [map_snd_zip (carried.length found).le]
    exact ⟨_, placed, hoists, lines, _, code', later,
      .copiedIn side carried.replaced copied (carried.supplies found planned copied),
      (Gains.of_becomes becomes).trans gains,
      (Program.Reworks.of_update set apart one.keeps.preamble).trans reworks, assigned,
      differs_of_replace found carried.replaced, answers,
      fun line mem => copied.serves paired line.2 (mem_map_of_mem mem)⟩
  | copiedOut side planned carried becomes copies =>
    have set := becomes.shows_changed shown split
    obtain ⟨shown', pairs⟩ := copyOut_yields set (Function.update_self ..) copies
    rw [Function.update_idem] at shown'
    obtain ⟨becomes', keeps'⟩ := copyOut_becomes copies
    have later : _ ≤ after.program.nextTemp := keeps'.nextTemp
    rw [becomes.program] at later
    have reworks := Program.Reworks.of_update shown' apart keeps.preamble
    rw [← append_nil front] at reworks
    obtain ⟨fit, fits, commits⟩ := carried.commits
    have answers := sound.graph.answers_of_commit fits commits
    rw [← becomes.graph, ← becomes'.graph] at answers
    exact ⟨_, [], [], [], _, _, later,
      .copiedOut side carried.replaced (carried.returns found planned pairs),
      (Gains.of_becomes becomes).trans (.of_becomes becomes'), reworks, _,
      differs_of_replace found carried.replaced, answers, forall_mem_nil _⟩

end Walk

end RegisterChains

/-
This file says why handling an instruction can fail. No rule is broken, because whatever is looked
up is there: the instruction, the place behind it, the node of a register, the copies of a value. A
run that was judged to fit is one that can be committed, what replaces a run is as long as the run,
and the target has an answer to what it is asked. Only the table of instructions can be full. Where
no descriptor pins a register, there are few errors too: a plan was judged to fit with places for
fresh registers in it, and registers that nobody has named fill them. If no plan was found, then all
members are copied, and the temporaries have room for that. So the only errors left are those of a
program that has no registers or no instructions to hand out.
-/

import RegisterChains.Proofs.Encodings
import RegisterChains.Proofs.Program.Fullness
import RegisterChains.Proofs.Repair.InUse

namespace RegisterChains

open ChainGraph List MachineSpec OperandRun Program Step

variable {origin : Option InstructionId} {r v : Register} {owned : Bool} {fit : Fit}

/-! ### Constraints -/

namespace ChainGraph

variable {g : ChainGraph} {excuse : ChainGraph → Prop} {regs : List Register} {parity : Parity}
  {via : Bool}

theorem safe_commitLinks : (commitLinks via regs).FailsFor (onBreach excuse) g := by
  induction regs generalizing g with
  | nil => exact fails_pure
  | cons head rest ih =>
    cases rest with
    | nil => exact fails_pure
    | cons next rest =>
      rw [commitLinks]
      refine (apply_yields.mpr ⟨rfl, rfl⟩ : Yields _ _ _ _).fails_bind ?_
      split
      · exact ih
      · exact fails_stop trivial

theorem safe_demandParity {id : NodeId} {must : Bool} (exists_node : ∃ n, g.node? id = some n) :
    (demandParity id parity must).FailsFor (onBreach excuse) g := by
  by_cases any : parity = .any
  · exact (demandParity_yields.mpr (.inl ⟨any, rfl, rfl⟩)).fails
  · exact (demandParity_yields.mpr (.inr ⟨any, exists_node, rfl, rfl⟩)).fails

theorem Sound.safe_commitParity (sound : g.Sound) (virt : regs.all (·.isVirtual) = true) :
    (commitParity regs parity).FailsFor (onBreach excuse) g := by
  unfold commitParity
  cases regs with
  | nil => exact fails_pure
  | cons head rest =>
    simp only
    split
    · exact fails_pure
    · have isVirtual := all_eq_true.mp virt head mem_cons_self
      refine (create_yields.mpr ⟨isVirtual, rfl, rfl⟩).fails_bind ?_
      have named := sound.find_ensure head
      obtain ⟨n, found, _⟩ := ((sound.evolves_ensure head).sound.registered _ _).mp named
      refine fails_bind (safe_demandParity ⟨n, found⟩) fun granted _ _ => ?_
      split
      · exact fails_stop trivial
      · exact fails_pure

/-- What was judged to fit is committed without a breach. -/
theorem Sound.safe_commit (sound : g.Sound) (fits : g.fitOperands regs parity = .ok fit) :
    (commit regs fit.parity via).FailsFor (onBreach excuse) g := by
  unfold fitOperands ChainGraph.fit at fits
  split at fits
  · exact (commit_of_fitNumbered fits via).fails
  · next numbered =>
    have placeable := sound.placeable_of_fit fits (unnumbered_of_not_any numbered)
    have virt := all_eq_true.mpr placeable.virtual
    unfold commit
    rw [if_pos virt]
    refine fails_bind safe_commitLinks fun _ mid links => ?_
    refine Sound.safe_commitParity ?_ virt
    rw [← links.leaves_eq]
    exact (sound.evolves_commitLinks _ _).sound

theorem stops_create {reason : ChainGraph → ResolutionError → Prop} :
    (create r).FailsFor (onError reason) g := by
  unfold create
  split
  · exact Yields.fails ⟨rfl, rfl⟩
  · exact fails_stop trivial

end ChainGraph

namespace Tracking

variable {track : Tracking} {reason : Tracking → ResolutionError → Prop}

theorem stops_recordCopy {dest : Register} {place : UInt32} :
    (recordCopy v dest origin place owned).FailsFor (onError reason) track := by
  unfold recordCopy
  split
  · exact fails_pure
  · refine fails_bind (fails_within.mpr stops_create) fun n _ _ => ?_
    rw [fails_get_bind]
    refine fails_lift_bind (fun _ _ => trivial) fun node _ => ?_
    -- From here on nothing is checked.
    cases node.payload with
    | arrayMember bnd => exact fails_pure
    | copy old | empty => exact Yields.fails ⟨rfl, rfl⟩

theorem stops_clear : clear.FailsFor (onError reason) track := by
  unfold clear
  rw [fails_modify_bind, fails_get_bind]
  split
  · exact fails_stop trivial
  · exact fails_pure

theorem stops_finish : finish.FailsFor (onError reason) track := by
  unfold finish
  rw [fails_get_bind]
  exact fails_report_bind.mpr stops_clear

end Tracking

namespace Walk

variable {spec : MachineSpec} {options : Options} {level : Option Level} {setting : Setting}
  {place : UInt32} {k : InstructionId} {run : OperandRun} {walk after : Walk} {inst : Instruction}
  {ops assigned : List Register} {plan : Plan} {pairs : List (Register × Register)}
  {strict lenient : Prop} {numbers : List UInt32} {ms : List (Register × Choice)}
  {holder : Register} {parity : Parity}

/-- There is no key left for another instruction. -/
def Full (walk : Walk) : Prop := walk.program.Full

/-- An error says what has run out. -/
def Exhausted (walk : Walk) : ResolutionError → Prop := walk.program.Exhausted

/-- Why a walk may fail: with a breach if there are no keys left, and with an error if a resource
has run out. Each of the two is asked for only under a condition. -/
def Excused (strict lenient : Prop) (walk : Walk) : Failure → Prop
  | .error error => lenient → walk.Exhausted error
  | .breach _ => strict → walk.Full

section

variable {α β : Type} {step : Step Walk α} {checked : Except Breach α} {next : α → Step Walk β}

theorem fails_excused (safe : strict → step.FailsFor (onBreach Full) walk)
    (stops : lenient → step.FailsFor (onError Exhausted) walk) :
    step.FailsFor (Excused strict lenient) walk := by
  intro failure failed
  cases failure with
  | error error => exact fun asked => stops asked _ failed
  | breach cause => exact fun asked => safe asked _ failed

theorem safe_of_excused (fails : step.FailsFor (Excused True False) walk) :
    step.FailsFor (onBreach Full) walk := by
  intro failure failed
  cases failure with
  | error error => trivial
  | breach cause => exact fails _ failed trivial

theorem stops_of_excused (fails : step.FailsFor (Excused False True) walk) :
    step.FailsFor (onError Exhausted) walk := by
  intro failure failed
  cases failure with
  | error error => exact fails _ failed trivial
  | breach cause => trivial

theorem fails_onProgram {step : Step Program α}
    (safe : strict → step.FailsFor (onBreach Program.Full) walk.program)
    (stops : lenient → step.FailsFor (onError Program.Exhausted) walk.program) :
    (onProgram step).FailsFor (Excused strict lenient) walk := by
  intro failure failed
  cases failure with
  | error error => exact fun asked => stops asked _ failed
  | breach cause => exact fun asked => safe asked _ failed

theorem fails_checked (passes : strict → ∃ v, checked = .ok v) :
    (liftM checked : Step Walk α).FailsFor (Excused strict lenient) walk := by
  refine fails_lift fun cause broken asked => ?_
  obtain ⟨v, passed⟩ := passes asked
  cases passed.symm.trans broken

theorem fails_checked_bind (passes : strict → ∃ v, checked = .ok v)
    (goesOn : ∀ v, checked = .ok v → (next v).FailsFor (Excused strict lenient) walk) :
    ((liftM checked : Step Walk α) >>= next).FailsFor (Excused strict lenient) walk := by
  refine fails_bind (fails_checked passes) fun v mid ran => ?_
  obtain ⟨passed, rfl⟩ := yields_lift.mp ran
  exact goesOn v passed

theorem fails_instruction_bind {next : Instruction → Step Walk β}
    (isInst : walk.program.instruction k = .ok inst)
    (goesOn : (next inst).FailsFor (Excused strict lenient) walk) :
    (Walk.instruction k >>= next).FailsFor (Excused strict lenient) walk :=
  fails_ok_bind isInst goesOn

end

/-! ### What is known of copies -/

section

variable (kept : strict → walk.tracking.Sound)

include kept

/-- Copies are remembered. -/
theorem fails_record {written : Register} : (do
      onTracking (modify (·.noteDef written))
      let _ ← onTracking (Tracking.recordCopy v holder origin place owned) :
      Step Walk Unit).FailsFor (Excused strict lenient) walk := by
  refine fails_excused (fun asked => ?_) fun _ => ?_
  · obtain ⟨result, track, records, _⟩ :=
      ((kept asked).noteDef written).1.sound.exists_recordCopy v holder origin place owned
    have forgets : (onTracking (modify (·.noteDef written))).Yields walk () _ :=
      onTracking_yields.mpr ⟨_, yields_modify.mpr rfl, rfl⟩
    refine forgets.fails_bind ?_
    exact fails_bind (onTracking_yields.mpr ⟨track, records, rfl⟩).fails fun _ _ _ => fails_pure
  · refine fails_bind (fails_within.mpr fails_modify) fun _ _ _ => ?_
    exact fails_bind (fails_within.mpr Tracking.stops_recordCopy) fun _ _ _ => fails_pure

theorem fails_rememberAll {copy : InstructionId} :
    (rememberAll place copy pairs).FailsFor (Excused strict lenient) walk := by
  induction pairs generalizing walk with
  | nil => exact fails_pure
  | cons pair rest ih =>
    exact fails_bind (fails_record kept) fun _ _ remembers => ih fun asked =>
      (remember_yields (kept asked) remembers).sound

theorem fails_recordAllPending {last : InstructionId} {copies : List PendingCopy} :
    (recordAllPending place last copies).FailsFor (Excused strict lenient) walk := by
  induction copies generalizing walk last with
  | nil => exact fails_pure
  | cons copy rest ih =>
    exact fails_bind (fails_record kept) fun _ _ records => ih fun asked =>
      (recordPending_yields (kept asked) records).sound

theorem fails_recordDeferred : (recordDeferred place k).FailsFor (Excused strict lenient) walk := by
  unfold recordDeferred
  rw [fails_get_bind]
  simp only
  split
  · rw [fails_modify_bind]
    refine fails_record fun asked => ?_
    exact kept asked
  · exact fails_pure

variable {pending : List PendingCopy} (ends : strict → ∃ next, walk.program.layout.nextOf
    ((k :: pending.map (·.instruction)).getLast (by simp)) = .ok next)

include ends

theorem fails_recordBehind : (do
      recordDeferred place k
      let last ← recordAllPending place k pending
      (← get).program.layout.nextOf last :
        Step Walk (Option InstructionId)).FailsFor (Excused strict lenient) walk := by
  refine fails_bind (fails_recordDeferred kept) fun _ deferred defers => ?_
  have learned : strict → deferred.tracking.Sound ∧ deferred.program = walk.program := by
    intro asked
    obtain ⟨_, _, learns⟩ := recordDeferred_yields (kept asked) defers
    exact ⟨learns.sound, learns.program⟩
  refine fails_bind (fails_recordAllPending fun asked => (learned asked).1) fun last _ records => ?_
  rw [fails_get_bind]
  refine fails_checked fun asked => ?_
  obtain ⟨kept', same⟩ := learned asked
  obtain ⟨learns, isLast⟩ := recordAllPending_yields kept' records
  rw [learns.program, same, isLast]
  exact ends asked

/-- An instruction whose runs hold is concluded. -/
theorem fails_conclude (isInst : strict → ∃ inst, walk.program.instruction k = .ok inst) :
    (conclude setting place k pending).FailsFor (Excused strict lenient) walk := by
  unfold conclude
  refine (fails_checked_bind isInst fun inst _ => ?_ : _)
  rw [fails_modify_bind, fails_modify_bind]
  have used := fun asked => learns_noteUses (kept asked) place inst.sources false
  have written := fun asked => (used asked).trans (learns_noteDefs (used asked).sound inst.dests
    false)
  have ends' := fun asked => (written asked).program.symm ▸ ends asked
  split
  · rw [fails_report_bind]
    refine fails_bind (fails_excused (fun asked => ?_) fun _ =>
      fails_within.mpr Tracking.stops_clear) fun _ cleared clears => ?_
    · exact (onTracking_yields.mpr ⟨_, (written asked).sound.clear.1, rfl⟩).fails
    · have forgets := fun asked => learns_clear (written asked).sound false clears
      exact fails_recordBehind (fun asked => (forgets asked).sound)
        fun asked => (forgets asked).program.symm ▸ ends' asked
  · exact fails_recordBehind (fun asked => (written asked).sound) ends'

end

/-! ### Repairs without copies -/

/-- Where nothing is pinned, what was judged to fit is committed. -/
theorem Ready.commits (ready : walk.Ready spec) {regs : List Register} (mid : Walk)
    (same : mid.graph = walk.graph) (fits : walk.graph.fitOperands regs parity = .ok fit) :
    ∃ after, (commit regs fit.parity).Yields mid () after := by
  have bounded : 1 ≤ walk.graph.limit .temp → walk.graph.Bounded := by
    intro room
    refine ready.pass.bounded ?_
    rw [← ready.pass.limits]
    exact room
  obtain ⟨g, commits⟩ := ready.sound.graph.commit_of_unpinned ready.pass.unpinned bounded fits true
  exact ⟨_, Walk.commit_yields.mpr ⟨g, same ▸ commits, rfl⟩⟩

section

variable (sound : walk.graph.Sound) (ready : lenient → walk.Ready spec)

include sound ready

theorem fails_commit {mid : Walk} (same : mid.graph = walk.graph)
    (fits : walk.graph.fitOperands ops parity = .ok fit) :
    (commit ops fit.parity).FailsFor (Excused strict lenient) mid := by
  refine fails_excused (fun _ => ?_) fun asked => ?_
  · rw [← same] at sound fits
    exact fails_within.mpr (fails_within.mpr (sound.safe_commit fits))
  · obtain ⟨_, commits⟩ := (ready asked).commits mid same fits
    exact commits.fails

theorem fails_tryReorder (isInst : walk.program.instruction k = .ok inst)
    (mem : strict → run ∈ runs inst) :
    (tryReorder ⟨spec.target, options, level⟩ k run ops).FailsFor
    (Excused strict lenient) walk := by
  unfold tryReorder
  rw [fails_get_bind]
  cases chainOrder walk.graph ops with
  | none => exact fails_pure
  | some order =>
    refine (judge_yields.mpr ⟨rfl, rfl⟩).fails_bind ?_
    cases fits : walk.graph.fitOperands (order.filterMap (ops[·]?)) run.parity with
    | error conflict => exact fails_pure
    | ok fit =>
      refine fails_instruction_bind isInst ?_
      split
      · exact fails_pure
      · refine fails_checked_bind (fun asked => exists_reorder spec (mem asked) order)
          fun reordered _ => ?_
        cases reordered with
        | none => exact fails_pure
        | some ch =>
          refine (setInstruction_yields.mpr rfl).fails_bind ?_
          exact fails_bind (fails_commit sound ready rfl fits) fun _ _ _ => fails_pure

end

theorem length_of_known {target : Target} {values : List UInt32}
    (known : ops.mapM (knownValue target) = some values) : values.length = ops.length := by
  induction ops generalizing values with
  | nil =>
    cases known
    rfl
  | cons op rest ih =>
    rw [mapM_cons] at known
    obtain ⟨v, _, others⟩ := Option.bind_eq_some_iff.mp known
    obtain ⟨values, areValues, isList⟩ := Option.bind_eq_some_iff.mp others
    cases isList
    exact congrArg Nat.succ (ih areValues)

theorem fails_tryConstants (isInst : walk.program.instruction k = .ok inst)
    (found : run.operands inst = .ok ops) (small : strict → spec.constants.length ≤ UInt32.size) :
    (tryConstants ⟨spec.target, options, level⟩ k run ops).FailsFor
    (Excused strict lenient) walk := by
  unfold tryConstants
  split
  · exact fails_pure
  · simp only
    split
    · next values isValues =>
      split
      · next start isStart =>
        refine fails_instruction_bind isInst ?_
        refine fails_checked_bind (fun asked => ⟨_, if_pos ?_⟩) fun constants isConstants => ?_
        · rw [← length_of_known isValues]
          exact Nat.le_trans (constantRun_le (small asked) isStart) (small asked)
        split
        · exact fails_pure
        · refine (judge_yields.mpr ⟨rfl, rfl⟩).fails_bind ?_
          split
          · have length : constants.length = run.count := by
              obtain ⟨_, _, cuts⟩ := operands_eq_ok.mp found
              unfold constantsFrom at isConstants
              split at isConstants
              · cases isConstants
                rw [length_map, length_range, cuts.count]
              · cases isConstants
            exact fails_checked_bind (fun _ => exists_replace found length) fun ch _ =>
              (setInstruction_yields.mpr rfl).fails_bind fails_pure
          · exact fails_pure
      · exact fails_pure
    · exact fails_pure

theorem fails_reportNarrowed {relaxes : Bool} {narrowed : Instruction}
    (encodable : strict → narrowed.Encodable relaxes) :
    (reportNarrowed setting k narrowed).FailsFor (Excused strict lenient) walk := by
  unfold reportNarrowed
  split
  · exact fails_checked_bind (fun asked => (encodable asked).exists_text) fun _ _ => fails_report
  · exact fails_pure

/-- An instruction stands in a block of the body. -/
def Located (k : InstructionId) (inst : Instruction) (walk : Walk) : Prop :=
  ∃ order code blk front back, walk.program.Shows order code ∧ blk ∈ order ∧
    code blk = front ++ (k, inst) :: back

theorem fails_tryRelax {cost : Nat} (isInst : walk.program.instruction k = .ok inst)
    (located : strict → Located k inst walk) (encodable : strict → inst.Encodable true) :
    (tryRelax ⟨spec.target, options, level⟩ k run cost).FailsFor (Excused strict lenient) walk := by
  unfold tryRelax
  refine fails_instruction_bind isInst ?_
  refine fails_checked_bind (fun asked => (encodable asked).exists_relax run)
    fun relaxed relaxes => ?_
  cases relaxed with
  | none => exact fails_pure
  | some relaxation =>
    simp only
    split
    · rw [fails_report_bind]
      exact fails_pure
    · cases relaxation with
      | narrow narrowed =>
        rw [applyRelaxation]
        split
        · exact fails_pure
        · exact fails_bind (fails_reportNarrowed fun asked => (encodable asked).narrow relaxes)
            fun _ _ _ => (setInstruction_yields.mpr rfl).fails_bind fails_pure
      | expand sequence =>
        rw [applyRelaxation, fails_get_bind]
        refine fails_checked_bind (fun asked => ?_) fun next _ => fails_bind
          (fails_onProgram (fun asked => ?_) fun _ => stops_replace) fun inserted _ _ => ?_
        · obtain ⟨_, _, _, _, _, shown, _, split⟩ := located asked
          exact ⟨_, shown.nextOf_eq split⟩
        · obtain ⟨_, _, _, _, _, shown, _, split⟩ := located asked
          exact safe_replace shown split
        · rw [fails_report_bind]
          exact fails_pure

/-! ### Copies -/

theorem fails_planCopies (sound : strict → walk.tracking.Sound)
    (isInst : walk.program.instruction k = .ok inst) :
    (planCopies setting place k run ops).FailsFor (Excused strict lenient) walk := by
  unfold planCopies
  rw [fails_get_bind]
  refine fails_instruction_bind isInst ?_
  have same : strict → ∀ r ∈ ops, ∃ others,
      (if setting.options.reuseCopies && run.side = .source then walk.equivalents r
        else .ok []) = .ok others := by
    intro asked r _
    split
    · obtain ⟨records, held⟩ := (sound asked).exists_holders ((walk.tracking.valueOf r).getD r)
      exact exists_bind_eq_ok held ⟨_, rfl⟩
    · exact ⟨_, rfl⟩
  refine fails_checked_bind (fun asked => exists_bind_of_exists
    (exists_mapM_eq_ok (same asked)) fun _ _ => ⟨_, rfl⟩) fun ms _ => ?_
  simp only
  rw [fails_reportAll_bind]
  split
  · exact fails_pure
  · rw [fails_report_bind]
    exact fails_pure

theorem fails_freshNumbers {needed : Nat} :
    (freshNumbers needed).FailsFor (Excused strict lenient) walk := by
  unfold freshNumbers
  split
  · exact fails_pure
  · exact fails_bind (fails_onProgram (fun _ => fails_allocate fun _ => trivial)
      fun _ => fails_allocate .registers) fun _ _ _ => fails_pure

/-- There are enough numbers for the fresh registers. -/
theorem fails_assignment (enough : lenient → (ms.map Prod.snd).count .fresh ≤ numbers.length) :
    (assignment ms numbers).FailsFor (Excused strict lenient) walk := by
  induction ms generalizing numbers walk with
  | nil => exact fails_pure
  | cons mem rest ih =>
    obtain ⟨r, choice⟩ := mem
    simp only [map_cons, count_cons] at enough
    cases choice with
    | keep => exact fails_bind (ih enough) fun _ _ _ => fails_pure
    | reuse one | recycle one =>
      exact (count_yields.mpr rfl).fails_bind (fails_bind (ih enough) fun _ _ _ => fails_pure)
    | fresh =>
      cases numbers with
      | nil => exact fails_stop fun asked => absurd (enough asked) (Nat.not_succ_le_zero _)
      | cons number numbers =>
        exact fails_bind (ih fun asked => Nat.le_of_succ_le_succ (enough asked)) fun _ _ _ =>
          fails_pure

theorem exists_copyInstruction (pairs : List (Register × Register)) :
    ∃ copy, copyInstruction pairs = .ok copy := by
  unfold copyInstruction
  split
  · exact ⟨_, rfl⟩
  · exact ⟨_, if_pos (by rw [length_map, length_map])⟩

section

variable (sound : walk.tracking.Sound)

include sound

section

variable (located : strict → Located k inst walk)

include located

theorem fails_hoistCopy (isSome : lenient → walk.program.preamble.isSome = true) :
    (hoistCopy place v holder).FailsFor (Excused strict lenient) walk := by
  unfold hoistCopy
  rw [fails_get_bind]
  cases isPreamble : walk.program.preamble with
  | none =>
    refine fails_stop fun asked => ?_
    rw [isPreamble] at isSome
    cases isSome asked
  | some preamble =>
    refine fails_bind (fails_onProgram (fun asked => ?_)
      fun _ => stops_create_place .instructions) fun copy _ pushes => ?_
    · obtain ⟨_, _, _, _, _, shown, _⟩ := located asked
      exact safe_push shown (shown.aside preamble isPreamble).2
    obtain ⟨prog, _, rfl⟩ := onProgram_yields.mp pushes
    refine fails_bind (fails_within.mpr (fails_within.mpr fails_modify)) fun _ _ exports => ?_
    obtain ⟨_, exported, rfl⟩ := onProgram_yields.mp exports
    obtain rfl := yields_modify.mp exported
    refine (count_yields.mpr rfl).fails_bind ?_
    rw [fails_modify_bind]
    refine fails_record fun _ => ?_
    exact sound

theorem fails_copyInFront : (copyInFront place k pairs).FailsFor (Excused strict lenient) walk := by
  refine fails_checked_bind (fun _ => exists_copyInstruction pairs) fun made _ => ?_
  refine fails_bind (fails_onProgram (fun asked => ?_)
    fun _ => stops_create_place .instructions) fun copy _ inserts => ?_
  · obtain ⟨_, _, _, _, _, shown, _, split⟩ := located asked
    exact (safe_insertBefore shown split : _)
  obtain ⟨prog, _, rfl⟩ := onProgram_yields.mp inserts
  refine (count_yields.mpr rfl).fails_bind (fails_rememberAll fun _ => ?_)
  exact sound

/-- Copies in the preamble are those of members, and there is a preamble for them. -/
theorem fails_copyIn {batches : List Batch}
    (isMem : strict → ∀ i, .hoist i ∈ batches → i < pairs.length)
    (isSome : lenient → ∀ i, .hoist i ∈ batches → walk.program.preamble.isSome = true) :
    (copyIn place k pairs batches).FailsFor (Excused strict lenient) walk := by
  induction batches generalizing walk with
  | nil => exact fails_pure
  | cons batch rest ih =>
    have goesOn : ∀ {mid : Walk}, walk.Extends mid → (strict → Located k inst mid) →
        (copyIn place k pairs rest).FailsFor (Excused strict lenient) mid := by
      intro mid extends' located
      refine ih extends'.sound located (fun asked i mem => isMem asked i (mem_cons_of_mem _ mem))
        fun asked i mem => ?_
      rw [extends'.keeps.preamble]
      exact isSome asked i (mem_cons_of_mem _ mem)
    cases batch with
    | hoist i =>
      rw [copyIn]
      split
      · refine fails_bind (fails_hoistCopy sound located fun asked =>
          isSome asked i mem_cons_self) fun _ _ hoists => ?_
        refine goesOn (hoistCopy_extends sound hoists) fun asked => ?_
        obtain ⟨order, code, blk, front, back, shown, body, split⟩ := located asked
        obtain ⟨_, code', reworks⟩ := hoistCopy_reworks sound shown body hoists
        exact ⟨order, code', blk, front, back, reworks.shown, body, reworks.here.trans split⟩
      · next none =>
        refine fails_stop fun asked => ?_
        rw [getElem?_eq_getElem (isMem asked i mem_cons_self)] at none
        exact (none _ _ rfl).elim
    | inPlace start width =>
      refine fails_bind (fails_copyInFront sound located) fun _ _ copies => ?_
      refine goesOn (copyInFront_extends sound copies) fun asked => ?_
      obtain ⟨order, code, blk, front, back, shown, body, split⟩ := located asked
      obtain ⟨_, made, copy, code', _, reworks⟩ := copyInFront_reworks sound shown body split copies
      refine ⟨order, code', blk, front ++ [(copy, made)], back, reworks.shown, body, ?_⟩
      rw [reworks.here, append_assoc, singleton_append]

end

end

theorem fails_copyOut {ms : List (Register × Register × Choice)}
    (located : strict → ∃ inst, Located k inst walk) :
    (copyOut k ms).FailsFor (Excused strict lenient) walk := by
  induction ms generalizing walk k with
  | nil => exact fails_pure
  | cons mem rest ih =>
    obtain ⟨v, holder, choice⟩ := mem
    unfold copyOut
    split
    · exact ih located
    · refine fails_bind (fails_onProgram (fun asked => ?_)
        fun _ => stops_create_place .instructions) fun copy _ inserts => ?_
      · obtain ⟨inst, _, _, _, _, _, shown, _, split⟩ := located asked
        exact (safe_insertAfter shown split : _)
      obtain ⟨prog, inserted, rfl⟩ := onProgram_yields.mp inserts
      refine (count_yields.mpr rfl).fails_bind (fails_bind (ih fun asked => ?_)
        fun _ _ _ => fails_pure)
      obtain ⟨inst, order, code, blk, front, back, shown, body, split⟩ := located asked
      refine ⟨.move v holder, order, _, blk, front ++ [(k, inst)], back,
        shown.insertAfter split inserted, body, ?_⟩
      rw [Function.update_self, append_assoc, singleton_append]

/-! ### Carrying out a plan -/

theorem Assigns.length_eq (assigns : Assigns ms numbers assigned) :
    assigned.length = ms.length := by
  induction assigns with
  | nil numbers => rfl
  | keep _ ih | reuse _ ih | recycle _ ih | fresh _ ih => exact congrArg Nat.succ ih

/-- The registers that the members end up with fill the places of the plan. -/
theorem Assigns.filled (assigns : Assigns ms numbers assigned) :
    Filled (ms.map fun mem => mem.2.slot mem.1) (numbers.map .temp) assigned := by
  induction assigns with
  | nil numbers => exact .nil _
  | keep _ ih | reuse _ ih | recycle _ ih => exact .register _ ih
  | fresh _ ih => exact .fresh _ ih

theorem slotsOf_eq_map (regs : List Register) (choices : List Choice) : slotsOf regs choices =
      (regs.zip choices).map fun mem => mem.2.slot mem.1 := by
  unfold slotsOf
  rw [← map_uncurry_zip_eq_zipWith]
  rfl

/-- A choice that leads to a register was offered because the register can stand in. -/
theorem Offer.standsIn {wanted : List Register} {op : Register} {choice : Choice} (next : UInt32)
    (offer : Offer walk place inst run wanted op choice) (slot : choice.slot op = .register r) :
    StandsIn walk run inst next op choice r := by
  cases offer with
  | keep =>
    cases slot
    exact .keep
  | reuse side same mem _ =>
    cases slot
    exact .reuse side same mem
  | recycle mem =>
    cases slot
    exact .recycle (vacant_of_recyclable next mem)
  | fresh => cases slot

/-- Copies in the preamble are those of members, and only if there is one. -/
theorem Planned.of_hoist (planned : Planned setting place run walk inst ops plan) {i : Nat}
    (mem : .hoist i ∈ plan.batches) : i < ops.length ∧ walk.program.preamble.isSome = true := by
  obtain ⟨wanted, _, offers⟩ := planned.offered
  obtain ⟨width, hoistable, gathered, allows⟩ :=
    batches_eq_gather setting walk.program run ops plan.choices
  rw [planned.batches, gathered] at mem
  obtain ⟨chosen, allowed⟩ := (Batch.gather_spec width hoistable plan.choices).2 i mem
  rw [offers.length_eq]
  exact ⟨lt_of_getElem? chosen, (allows i allowed).1⟩

section

variable (isInst : walk.program.instruction k = .ok inst) (found : run.operands inst = .ok ops)
  (planned : Planned ⟨spec.target, options, level⟩ place run walk inst ops plan)

include found planned

section

variable (ready : walk.Ready spec) (room : run.count ≤ spec.limits.temp)

include ready

/-- A plan fits: it was judged to, or it copies all members. -/
theorem Ready.fits_planned (room : run.count ≤ spec.limits.temp) :
    ∃ fit, walk.graph.fit (slotsOf ops plan.choices) run.parity = .ok fit := by
  rcases planned.judged with allFresh | fits
  · have slots : slotsOf ops plan.choices = replicate ops.length .fresh := by
      rw [allFresh]
      unfold slotsOf
      rw [zipWith_map_right, zipWith_self]
      exact map_const'
    obtain ⟨_, _, cuts⟩ := operands_eq_ok.mp found
    rw [slots, cuts.count]
    refine fit_replicate_fresh walk.graph ?_ run.parity
    show run.count ≤ walk.graph.limits.get .temp
    rw [ready.pass.limits]
    exact room
  · exact fits

include isInst

/-- The registers that a plan names are in use. -/
theorem Ready.noted_of_slot (mem : .register r ∈ slotsOf ops plan.choices) :
    walk.program.Noted r := by
  obtain ⟨wanted, _, offers⟩ := planned.offered
  rw [slotsOf_eq_map] at mem
  obtain ⟨⟨op, choice⟩, isMem, slot⟩ := mem_map.mp mem
  have noted :=
    (ready.suits isInst).noted op (mem_of_operands found (of_mem_zip isMem).1)
  exact ready.noted_of_standsIn noted (UInt32.le_refl _) (UInt32.le_refl _)
    ((forall₂_zip offers isMem).standsIn walk.program.nextTemp slot)

include room

/-- With fresh registers for the places that a plan leaves to them, the run fits. -/
theorem Ready.fits_assigned (distinct : numbers.Nodup)
    (fresh : ∀ number ∈ numbers, walk.program.nextTemp ≤ number)
    (assigns : Assigns (ops.zip plan.choices) numbers assigned) :
    ∃ fit, walk.graph.fitOperands assigned run.parity = .ok fit := by
  obtain ⟨fit, fits⟩ := ready.fits_planned found planned room
  have filled := assigns.filled
  rw [← slotsOf_eq_map] at filled
  have single : (numbers.map Register.temp).Nodup :=
    distinct.map fun _ _ same => congrArg Register.number same
  refine ⟨fit, filled.fitOperands_eq_ok single (fun r mem => ?_) fits⟩
  obtain ⟨number, isNumber, rfl⟩ := mem_map.mp mem
  -- Whatever has a node or is named by the plan is in use, and this register is not.
  have new : ¬ walk.program.Noted (.temp number) := fun noted =>
    absurd (noted rfl) (UInt32.not_lt.mpr (fresh number isNumber))
  refine ⟨rfl, ?_, fun named => new (ready.noted_of_slot isInst found planned named)⟩
  by_contra known
  exact new (ready.pass.nodes _ known).1

end

variable (sound : walk.tracking.Sound) (ready : lenient → walk.Ready spec)
  (room : lenient → run.count ≤ spec.limits.temp)

include isInst sound ready room

theorem fails_applyPlan : (applyPlan k run ops plan).FailsFor (Excused strict lenient) walk := by
  obtain ⟨wanted, _, offers⟩ := planned.offered
  obtain ⟨_, _, cuts⟩ := operands_eq_ok.mp found
  refine fails_bind fails_freshNumbers fun numbers _ allocates => ?_
  obtain ⟨next, _, enough, distinct, bounds, rfl⟩ := freshNumbers_yields allocates
  refine fails_bind (fails_assignment fun _ => ?_) fun assigned _ assigning => ?_
  · rw [map_snd_zip (Nat.le_of_eq offers.length_eq.symm), enough]
    exact Nat.le_refl _
  obtain ⟨assigns, stats, rfl⟩ := assignment_yields assigning
  have length : assigned.length = run.count := by
    rw [assigns.length_eq, length_zip, ← offers.length_eq, Nat.min_self, cuts.count]
  refine (judge_yields.mpr ⟨rfl, rfl⟩).fails_bind ?_
  simp only
  cases fits : walk.graph.fitOperands assigned run.parity with
  | error conflict =>
    refine fails_stop fun asked => ?_
    obtain ⟨fit, fits'⟩ := (ready asked).fits_assigned isInst found planned (room asked) distinct
      (fun number mem => (bounds number mem).1) assigns
    cases fits.symm.trans fits'
  | ok fit =>
    refine fails_bind (fails_commit sound.graph ready rfl fits) fun _ _ commits => ?_
    obtain ⟨g, _, rfl⟩ := commit_yields.mp commits
    refine fails_instruction_bind isInst ?_
    refine fails_checked_bind (fun _ => exists_replace found length) fun ch _ => ?_
    refine (setInstruction_yields.mpr rfl).fails_bind ?_
    rw [fails_report_bind]
    exact fails_pure

variable (located : strict → Located k inst walk)

include located

theorem fails_copyRun : (copyRun place k run ops plan).FailsFor (Excused strict lenient) walk := by
  unfold copyRun
  refine fails_bind (fails_applyPlan isInst found planned sound ready room)
    fun assigned mid applies => ?_
  obtain ⟨ch, next, g, carried, becomes⟩ := applyPlan_yields isInst applies
  have extends' := carried.extends sound becomes
  have located' : strict → Located k ch mid := by
    intro asked
    obtain ⟨order, code, blk, front, back, shown, body, split⟩ := located asked
    exact ⟨order, _, blk, front, back, becomes.shows_changed shown split, body,
      Function.update_self ..⟩
  cases run.side with
  | source =>
    refine fails_bind (fails_copyIn extends'.sound located' (fun _ i mem => ?_)
      fun _ i mem => ?_) fun _ _ _ => fails_pure
    · rw [length_zip, carried.length found, Nat.min_self]
      exact (planned.of_hoist mem).1
    · rw [extends'.keeps.preamble]
      exact (planned.of_hoist mem).2
  | dest =>
    exact fails_bind (fails_copyOut fun asked => ⟨ch, located' asked⟩) fun _ _ _ => fails_pure

end

/-! ### One run -/

section

variable (isInst : walk.program.instruction k = .ok inst) (sound : walk.tracking.Sound)
  (located : strict → Located k inst walk)
  (encodable : strict → inst.Encodable options.relaxEncodings)
  (ready : lenient → walk.Ready spec) (room : lenient → run.count ≤ spec.limits.temp)

include isInst sound located encodable ready room

theorem fails_relaxOrCopy (found : run.operands inst = .ok ops) :
    (relaxOrCopy ⟨spec.target, options, level⟩ place k run ops).FailsFor
      (Excused strict lenient) walk := by
  refine fails_bind (fails_planCopies (fun _ => sound) isInst) fun plan _ plans => ?_
  obtain ⟨rfl, planned⟩ := planCopies_yields isInst plans
  have copies := @fails_copyRun _ _ _ _ _ _ _ _ _ _ strict _ isInst found planned sound ready room
    located
  split
  · next enabled =>
    rw [enabled] at encodable
    refine fails_bind (fails_tryRelax isInst located encodable) fun result _ relaxes => ?_
    obtain ⟨rfl, rfl⟩ | ⟨fix, prog, rfl, _, rfl⟩ := tryRelax_yields isInst relaxes
    · exact copies
    · exact (count_yields.mpr rfl).fails_bind fails_pure
  · exact copies

variable (small : strict → options.substituteConstants = true → spec.constants.length ≤ UInt32.size)
  (mem : strict → run ∈ runs inst)

include small mem

theorem fails_repairRun (found : run.operands inst = .ok ops) :
    (repairRun ⟨spec.target, options, level⟩ place k run ops).FailsFor
    (Excused strict lenient) walk :=
  fails_tryFirst (tryReorder_yields isInst) (fun _ => fails_tryReorder sound.graph ready isInst mem)
    (fails_tryFirst (tryConstants_yields isInst)
      (fun enabled => fails_tryConstants isInst found fun asked => small asked enabled)
      (fails_relaxOrCopy isInst sound located encodable ready room found))

omit isInst

/-- A run is handled, as long as it can be counted, there are keys for new instructions, and no
resource runs out. -/
theorem fails_handleRun (isInst : walk.program.instruction k = .ok inst)
    (countable : strict → Stats.limit ≤ walk.looked + 1 → walk.Full) :
    (handleRun ⟨spec.target, options, level⟩ place k run).FailsFor
    (Excused strict lenient) walk := by
  unfold handleRun
  refine fails_instruction_bind isInst ?_
  refine fails_checked_bind (fun asked => exists_operands (mem asked)) fun ops found => ?_
  rw [fails_get_bind]
  refine fails_lift_bind (fun _ broken asked => countable asked ?_) fun stats _ => ?_
  · unfold Stats.countChecked at broken
    split at broken
    · cases broken
    · next full => exact Nat.not_lt.mp full
  · rw [fails_modify_bind]
    refine (judge_yields.mpr ⟨rfl, rfl⟩).fails_bind ?_
    cases fits : walk.graph.fitOperands ops run.parity with
    | ok fit => exact fails_bind (fails_commit sound.graph ready rfl fits) fun _ _ _ => fails_pure
    | error conflict =>
      refine fails_report_bind.mpr ((count_yields.mpr rfl).fails_bind ?_)
      refine fails_repairRun isInst ?_ located encodable
        (fun asked => (ready asked).counts _) room small mem found
      exact sound

end

/-! ### Walks -/

theorem stops_handleRun (ready : walk.Ready spec) (room : run.count ≤ spec.limits.temp) :
    (handleRun ⟨spec.target, options, level⟩ place k run).FailsFor (onError Exhausted) walk := by
  cases isInst : walk.program.instruction k with
  | error cause =>
    unfold handleRun
    refine fails_bind (fails_lift fun _ _ => trivial) fun inst _ reads => ?_
    cases isInst.symm.trans (instruction_yields.mp reads).1
  | ok inst =>
    exact stops_of_excused (fails_handleRun ready.sound False.elim False.elim
      (fun _ => ready) (fun _ => room) False.elim False.elim isInst False.elim)

theorem stops_visit (ready : walk.Ready spec) :
    (visit ⟨spec.target, options, level⟩ place k).FailsFor (onError Exhausted) walk :=
  (preparing spec options level place k).fails_visit
    (fun during => stops_handleRun during.1.1 (during.2 _ mem_cons_self))
    (fun _ => fails_lift fun _ _ => trivial) (fun _ _ => fails_stop trivial) ready.prepared
    fun _ => stops_of_excused (fails_conclude False.elim False.elim False.elim)

theorem stops_visitFrom {remaining : Nat} {next : Option InstructionId} (ready : walk.Ready spec) :
    (visitFrom ⟨spec.target, options, level⟩ remaining next).FailsFor (onError Exhausted) walk :=
  fails_visitFrom (fun _ walk _ => walk.Ready spec) (fun ready visits => ready.visit visits)
    stops_visit (fun _ _ => fails_stop trivial) ready
    (Nat.le_add_right_of_le (Nat.le_add_right UInt32.size remaining))

end Walk

end RegisterChains

/-
This file proves that copies are planned as well as possible. Where no bank has more room than the
temporaries, a plan that passes fits however many of its members are still undecided, so the search
never leaves a partial plan that could have been completed. The registers that a member may be
exchanged for are virtual throughout a walk, so a plan of hardware registers keeps all its members,
and those have been rejected.
-/

import RegisterChains.Proofs.Repair.Origins

namespace RegisterChains

open Tracking

namespace Walk

open List

open ChainGraph Step

variable {setting : Setting} {place : UInt32} {k : InstructionId} {run : OperandRun}
  {walk after : Walk}
  {inst : Instruction} {ops operands wanted : List Register} {blk : BlockId} {pass : Pass}

/-! ### Registers that hold copies -/

/-- The copies in the preamble are held by virtual registers, as those in the block are. -/
def Virtual (walk : Walk) : Prop :=
  ∀ pair ∈ walk.hoisted.pairs, pair.2.isVirtual = true

namespace Virtual

variable {pairs : List (Register × Register)} {g : ChainGraph}

theorem learns {written : List Register} {owned : Bool}
    (learns : Learns walk written pairs owned after) (virt : walk.Virtual) : after.Virtual :=
  fun pair mem => virt pair (learns.hoisted pair mem)

theorem becomes {prog : Program} (virt : walk.Virtual) (becomes : walk.Becomes prog g after) :
    after.Virtual := by
  unfold Virtual
  rw [becomes.hoisted]
  exact virt

theorem copyIn {batches : List Batch} (sound : walk.tracking.Sound) (virt : walk.Virtual)
    (hoists : ∀ i, .hoist i ∈ batches → ∀ pair, pairs[i]? = some pair → pair.2.isVirtual = true)
    (ran : (copyIn place k pairs batches).Yields walk () after) : after.Virtual := by
  induction batches generalizing walk with
  | nil =>
    obtain ⟨_, rfl⟩ := yields_pure.mp ran
    exact virt
  | cons batch rest ih =>
    have hoists' := fun i mem => hoists i (mem_cons_of_mem batch mem)
    cases batch with
    | hoist i =>
      rw [Walk.copyIn] at ran
      split at ran
      · next v holder isPair =>
        obtain ⟨_, mid, copies, later⟩ := yields_bind.mp ran
        obtain ⟨_, _, _, _, _, rfl, _, _, _, learns⟩ := hoistCopy_yields sound copies
        refine ih learns.sound (Virtual.learns learns fun pair mem => ?_) hoists' later
        rcases Assoc.mem_pairs_insert mem with rfl | old
        · exact hoists i mem_cons_self _ isPair
        · exact virt pair old
      · exact absurd ran not_yields_breach
    | inPlace start width =>
      obtain ⟨_, mid, copies, later⟩ := yields_bind.mp ran
      obtain ⟨_, _, _, _, _, rfl, _, _, _, learns⟩ := copyInFront_yields sound copies
      exact ih learns.sound (Virtual.learns learns virt) hoists' later

/-- What is copied in the preamble is copied into a fresh register. -/
theorem of_hoist {plan : Plan} {assigned : List Register} {ch : Instruction} {next : UInt32}
    (planned : Planned setting place run walk inst ops plan)
    (carried : Carried k run walk inst ops plan assigned ch next g) {i : Nat}
    (hoists : .hoist i ∈ plan.batches) {pair : Register × Register}
    (isPair : (ops.zip assigned)[i]? = some pair) : pair.2.isVirtual = true := by
  obtain ⟨wanted, _, offers⟩ := planned.offered
  obtain ⟨numbers, _, bounds, assigns⟩ := carried.assigns
  obtain ⟨isOperand, isAssigned⟩ := getElem?_zip_eq_some.mp isPair
  obtain ⟨choice, r, isChoice, isRegister, stands⟩ :=
    standsIn_of_assigns offers assigns bounds isOperand
  rw [planned.batches, Walk.batches] at hoists
  have isFresh := ((Batch.gather_spec _ _ _).2 i hoists).1
  cases isChoice.symm.trans isFresh
  cases isRegister.symm.trans isAssigned
  cases stands with
  | fresh handed =>
    obtain ⟨number, same, _⟩ := handed
    rw [same]
    rfl

theorem handled {fix : RunFix} (sound : walk.tracking.Sound) (virt : walk.Virtual)
    (handled : Handled setting place k run walk inst ops fix after) : after.Virtual := by
  cases handled with
  | fits _ _ becomes | reordered _ becomes | substituted _ becomes | relaxed _ becomes =>
    exact virt.becomes becomes
  | copiedIn _ planned carried becomes copies =>
    exact copyIn (carried.extends sound becomes).sound (virt.becomes becomes)
      (fun _ hoists _ isPair => of_hoist planned carried hoists isPair) copies
  | copiedOut _ _ _ becomes copies =>
    exact (virt.becomes becomes).becomes (copyOut_becomes copies).1

/-- Only a member that is left as it is can be a hardware register. -/
theorem eq_keep {r : Register} {choice : Choice} (sound : walk.tracking.Sound)
    (virt : walk.Virtual) (offer : Offer walk place inst run wanted r choice)
    (numbered : isNumbered (choice.slot r) = true) : choice = .keep := by
  have no : ∀ one : Register, one.isVirtual = true →
      isNumbered (.register one) = true → choice = .keep := by
    intro one isVirtual numbered
    change one.hardwareBank.isSome = true at numbered
    rw [hardwareBank_of_isVirtual isVirtual] at numbered
    cases numbered
  cases offer with
  | keep => rfl
  | @reuse _ one _ same mem _ =>
    refine no one ?_ numbered
    obtain ⟨v, _, holds⟩ := of_equivalents sound same mem
    rcases holds with ⟨rfl, _, isVirtual⟩ | ⟨owned, known⟩ | hoisted
    · exact isVirtual
    · exact sound.virtual_of_knows known
    · exact virt _ (Assoc.mem_of_get? hoisted)
  | @recycle one mem =>
    refine no one ?_ numbered
    rcases vacant_of_recyclable walk.program.nextTemp mem with handed | ⟨⟨v, known⟩, _⟩
    · obtain ⟨number, rfl, _⟩ := handed
      rfl
    · exact sound.virtual_of_knows known
  | fresh => cases numbered

end Virtual

/-! ### Walks that come up -/

/-- The walks that come up while blocks are handled, one run after the other. -/
inductive Reached (setting : Setting) : Walk → Prop where
  /-- No copy is known at the start. -/
  | begins {pass : Pass} (block : BlockId) (sound : pass.graph.Sound)
      (unmarked : Unmarked pass.graph) (none : pass.hoisted = .empty) :
    Reached setting ⟨pass, .empty block, []⟩
  /-- A run of an instruction is handled. -/
  | handles {walk after place key run inst ops fix} (reached : Reached setting walk)
      (found : walk.program.instruction key = .ok inst)
      (handled : Handled setting place key run walk inst ops fix after) :
    Reached setting after
  /-- All runs of an instruction hold. -/
  | concludes {walk after place key pending next} (reached : Reached setting walk)
      (yields : (conclude setting place key pending).Yields walk next after) :
    Reached setting after
  /-- An instruction was replaced. -/
  | defers {walk : Walk} (pending : List PendingCopy) (reached : Reached setting walk) :
    Reached setting { walk with deferred := walk.deferred ++ pending }
  /-- The walk goes on with another block. -/
  | enters {walk finished} (block : BlockId) (reached : Reached setting walk)
      (yields : (onTracking finish).Yields walk () finished) :
    Reached setting ⟨finished.toPass, .empty block, []⟩

theorem Reached.virtual (reached : Reached setting walk) : walk.tracking.Sound ∧ walk.Virtual := by
  induction reached with
  | begins blk sound unmarked none =>
    refine ⟨sound_empty sound unmarked blk, ?_⟩
    unfold Virtual
    rw [none]
    exact forall_mem_nil _
  | handles _ _ handled ih =>
    obtain ⟨sound, virt⟩ := ih
    exact ⟨(handled.extends sound).sound, virt.handled sound handled⟩
  | concludes _ ran ih =>
    obtain ⟨sound, virt⟩ := ih
    obtain ⟨inst, _, reads, _⟩ := yields_bind.mp ran
    obtain ⟨found, _⟩ := instruction_yields.mp reads
    obtain ⟨_, _, learns, _⟩ := conclude_yields sound found ran
    exact ⟨learns.sound, virt.learns learns⟩
  | defers _ _ ih => exact ih
  | enters blk _ ran ih =>
    obtain ⟨sound, virt⟩ := ih
    have learns := learns_finish sound true ran
    obtain ⟨_, unmarked, _⟩ := Pass.finish_extends sound ran
    exact ⟨sound_empty learns.sound.graph unmarked blk,
      fun pair mem => virt pair (learns.hoisted pair mem)⟩

/-- The walks while an instruction is visited. -/
def reaching (setting : Setting) (place : UInt32) (k : InstructionId) :
    Invariant setting place k where
  before now _ := Reached setting now
  during now _ _ := Reached setting now
  gone now _ _ := Reached setting now
  begins holds _ := holds
  step {_ _ _ _ _ _ _ fix} holds found _ handled _ := by
    have reached := holds.handles found handled
    cases fix <;> exact reached

theorem Reached.visit {next : Option InstructionId} (reached : Reached setting walk)
    (ran : (visit setting place k).Yields walk next after) : Reached setting after := by
  obtain ⟨mid, copies, holds, concludes⟩ | ⟨mid, copies, holds, rfl⟩ :=
    (reaching setting place k).visit reached ran
  · exact .concludes holds concludes
  · exact .defers copies holds

/-- Handling one block after the other, the walk stays among these. -/
theorem Reached.resolveBlock {after : Pass} (next : BlockId)
    (reached : Reached setting ⟨pass, .empty blk, []⟩)
    (ran : (Pass.resolveBlock setting blk).Yields pass () after) :
    Reached setting ⟨after, .empty next, []⟩ := by
  obtain ⟨first, walked, finished, _, visits, finishes, rfl⟩ := Pass.resolveBlock_yields ran
  exact .enters next (visitFrom_keeps (fun now _ => Reached setting now)
    (fun holds visits => holds.visit visits) reached visits) finishes

/-! ### The best plan -/

section

variable {members : List (Register × List Choice)} {conflict : Conflict}

section

variable (sound : walk.tracking.Sound) (virt : walk.Virtual) {plan : List Choice}

include sound virt

/-- A plan of hardware registers leaves all members as they are. -/
theorem Virtual.slotsOf_eq
    (offers : ∀ mem ∈ members, ∀ choice ∈ mem.2, Offer walk place inst run wanted mem.1 choice)
    (offered : List.Forall₂ (fun mem choice => choice ∈ mem.2) members plan)
    (numbered : ∀ slot ∈ slotsOf (members.map Prod.fst) plan, isNumbered slot = true) :
    slotsOf (members.map Prod.fst) plan = (members.map Prod.fst).map .register := by
  induction offered with
  | nil => rfl
  | @cons mem choice members plan isMem _ ih =>
    obtain rfl := virt.eq_keep sound (offers mem mem_cons_self choice isMem)
      (numbered _ mem_cons_self)
    refine congrArg (.register mem.1 :: ·) (ih ?_ ?_)
    · exact fun one later => offers one (mem_cons_of_mem _ later)
    · exact fun slot later => numbered slot (mem_cons_of_mem _ later)

/-- A plan that passes names no hardware register, because then it would leave all members as they
are. -/
theorem Virtual.unnumbered (listed : choices setting walk place inst run ops = .ok members)
    (rejected : walk.graph.fitOperands ops run.parity = .error conflict)
    (passes : Search.Passes (walk.graph.fit · run.parity) members plan) :
    (slotsOf (members.map Prod.fst) plan).any isNumbered = false := by
  obtain ⟨wanted, _, named, offers⟩ := offer_of_choices listed
  rw [Bool.eq_false_iff]
  intro numbered
  obtain ⟨fit, fits⟩ := passes.fits
  have hardware : walk.graph.fitNumbered _ run.parity = .ok fit := (if_pos numbered).symm.trans fits
  have kept := virt.slotsOf_eq sound offers passes.offered fun _ mem =>
    isNumbered_of_fitNumbered hardware mem
  rw [kept, named] at fits
  cases rejected.symm.trans fits

theorem Virtual.persists (room : ∀ bank, walk.graph.limit bank ≤ walk.graph.limit .temp)
    (listed : choices setting walk place inst run ops = .ok members)
    (rejected : walk.graph.fitOperands ops run.parity = .error conflict) :
    Search.Persists (walk.graph.fit · run.parity) members := by
  intro plan passes count
  have unnumbered := virt.unnumbered sound listed rejected passes
  obtain ⟨fit, fits⟩ := passes.fits
  have virtually : walk.graph.fitVirtual _ run.parity = .ok fit :=
    (if_neg (Bool.eq_false_iff.mp unnumbered)).symm.trans fits
  obtain ⟨fit', fits'⟩ := fitVirtual_opened room virtually count
  refine ⟨fit', (if_neg fun numbered => ?_).trans fits'⟩
  obtain ⟨slot, mem, isHardware⟩ := any_eq_true.mp numbered
  rcases mem_append.mp mem with early | late
  · exact any_eq_false.mp unnumbered slot (mem_of_mem_take early) isHardware
  · obtain ⟨_, _, rfl⟩ := mem_map.mp late
    cases isHardware

end

/-- The search plans the fewest copies that can be, and finds the first such plan. -/
theorem Reached.plan_optimal (reached : Reached setting walk)
    (room : ∀ bank, walk.graph.limit bank ≤ walk.graph.limit .temp)
    (rejected : walk.graph.fitOperands operands run.parity = .error conflict)
    (listed : choices setting walk place inst run operands = .ok members) :
    Search.Optimal (walk.graph.fit · run.parity) members
      (Search.run (walk.graph.fit · run.parity) members).best := by
  obtain ⟨sound, virtual⟩ := reached.virtual
  refine Search.optimal_run ?_ (virtual.persists sound room listed rejected)
  rintro rfl
  obtain ⟨_, _, rfl, _⟩ := offer_of_choices listed
  cases rejected

end

/-- A walk on which two registers have been linked. -/
def swapping : Walk where
  program := .empty "main"
  graph := ((ChainGraph.empty ⟨4, 4, 4, 4⟩).link (.temp 1) (.temp 2) true false).graph
  stats := .zero
  hoisted := .empty
  cache := .empty ⟨0⟩
  deferred := []

/-- The other way round, the second of the two registers has to be copied. -/
theorem plan_optimal_swapping :
    swapping.graph.fitOperands [.temp 2, .temp 1] .any = .error (.position 1) ∧
    (Search.run (swapping.graph.fit · .any)
      [(.temp 2, [.keep, .fresh]), (.temp 1, [.keep, .fresh])]).best = some (1, [.keep, .fresh]) ∧
    Search.Optimal (swapping.graph.fit · .any)
      [(.temp 2, [.keep, .fresh]), (.temp 1, [.keep, .fresh])]
      (Search.run (swapping.graph.fit · .any)
        [(.temp 2, [.keep, .fresh]), (.temp 1, [.keep, .fresh])]).best := by
  have evolves := (ChainGraph.sound_empty ⟨4, 4, 4, 4⟩).evolves_link (.temp 1) (.temp 2) true false
    (.inl rfl)
  have unmarked : Unmarked (ChainGraph.empty ⟨4, 4, 4, 4⟩) := by
    intro _ _ _ impossible
    cases impossible
  have reached : Reached ⟨MachineSpec.standard.target, .standard, none⟩ swapping :=
    .begins ⟨0⟩ evolves.sound (unmarked.grows evolves.grows) rfl
  have rejected : swapping.graph.fitOperands [.temp 2, .temp 1] .any = .error (.position 1) := by
    decide +kernel
  refine ⟨rejected, by decide +kernel, ?_⟩
  exact @Reached.plan_optimal _ 0 (.sources 0 2 none) _ (.move (.temp 3) (.temp 2)) _ _ _ reached
    (fun bank => by cases bank <;> decide +kernel) rejected (by decide +kernel)

end Walk

end RegisterChains

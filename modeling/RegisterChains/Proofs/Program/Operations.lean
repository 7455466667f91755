/-
This file says what each operation on a program does to it, and proves that fresh registers
are apart from the registers in use: no instruction and no descriptor names a virtual
register whose number is still to be handed out.
-/

import Mathlib.Data.List.Perm.Subperm
import RegisterChains.Pass
import RegisterChains.Proofs.Stores

namespace RegisterChains

open Arena List Step

variable {blk : BlockId}

namespace Program

variable {prog after : Program} {k anchor : InstructionId} {inst : Instruction}
  {sequence : List Instruction} {placing : InstructionId → Layout → Except Breach Layout}
  {change : Layout → Except Breach Layout} {r replacement : Register} {keys : List InstructionId}
  {operands : List Register} {desc : Descriptor} {stop first : UInt32} {count : Nat}

/-! ### Operations -/

theorem changeLayout_yields : (changeLayout change).Yields prog () after ↔
      ∃ layout, change prog.layout = .ok layout ∧ after = { prog with layout := layout } := by
  unfold changeLayout
  rw [yields_get_bind, yields_lift_bind]
  simp only [yields_modify]

theorem store_yields : (store inst).Yields prog k after ↔
      ∃ instructions, prog.instructions.insert inst = .ok (k, instructions) ∧
        after = { prog with instructions := instructions } := by
  unfold store
  rw [yields_get_bind, yields_lift_bind]
  simp only [yields_modify_bind, yields_pure, Prod.exists]
  constructor
  · rintro ⟨_, instructions, inserted, rfl, rfl⟩
    exact ⟨instructions, inserted, rfl⟩
  · rintro ⟨instructions, inserted, rfl⟩
    exact ⟨k, instructions, inserted, rfl, rfl⟩

/-- An instruction enters the table and gets a place. -/
def Adds (prog after : Program) (inst : Instruction) (k : InstructionId)
    (placing : Layout → Except Breach Layout) : Prop :=
  ∃ instructions layout, prog.instructions.insert inst = .ok (k, instructions) ∧
    placing prog.layout = .ok layout ∧
    after = { prog with instructions := instructions, layout := layout }

theorem store_place_yields : (store inst >>= fun k => changeLayout (placing k) >>= fun _ =>
      pure k).Yields prog k after ↔ prog.Adds after inst k (placing k) := by
  rw [yields_bind]
  constructor
  · rintro ⟨_, _, stored, placed⟩
    obtain ⟨instructions, inserted, rfl⟩ := store_yields.mp stored
    obtain ⟨_, layout, ordered, ended⟩ := yields_bind_of changeLayout_yields placed
    obtain ⟨rfl, rfl⟩ := yields_pure.mp ended
    exact ⟨instructions, layout, inserted, ordered, rfl⟩
  · rintro ⟨instructions, layout, inserted, ordered, rfl⟩
    refine ⟨k, _, store_yields.mpr ⟨instructions, inserted, rfl⟩, yields_bind.mpr
      ⟨(), _, changeLayout_yields.mpr ⟨layout, ordered, rfl⟩, yields_pure.mpr ⟨rfl, rfl⟩⟩⟩

theorem create_place_yields (ran : (create inst >>= fun k => changeLayout (placing k) >>= fun _ =>
      pure k).Yields prog k after) : prog.Adds after inst k (placing k) := by
  obtain ⟨created, mid, creates, places⟩ := yields_bind.mp ran
  refine store_place_yields.mp (yields_bind.mpr ⟨created, mid, ?_, places⟩)
  unfold create at creates
  rw [yields_get_bind] at creates
  split at creates
  · exact absurd creates not_yields_refuse
  · exact creates

theorem push_yields (ran : (push blk inst).Yields prog k after) :
    prog.Adds after inst k (·.append k blk) := create_place_yields ran

theorem prepend_yields (ran : (prepend blk inst).Yields prog k after) :
    prog.Adds after inst k (·.prepend k blk) := create_place_yields ran

theorem insertBefore_yields (ran : (insertBefore anchor inst).Yields prog k after) :
    prog.Adds after inst k (·.insertBefore k anchor) := create_place_yields ran

theorem insertAfter_yields (ran : (insertAfter anchor inst).Yields prog k after) :
    prog.Adds after inst k (·.insertAfter k anchor) := create_place_yields ran

theorem noteOperands_yields : (noteOperands operands).Yields prog () after ↔
      ∃ next, numberAfter prog.nextTemp operands = .ok next ∧
        after = { prog with nextTemp := next } := by
  unfold noteOperands
  rw [yields_get_bind, yields_lift_bind]
  simp only [yields_modify]

theorem append_yields (ran : (append blk inst).Yields prog k after) :
    ∃ next, numberAfter prog.nextTemp (inst.dests ++ inst.sources) = .ok next ∧
      Adds { prog with nextTemp := next } after inst k (·.append k blk) := by
  obtain ⟨_, next, number, stored⟩ := yields_bind_of noteOperands_yields ran
  exact ⟨next, number, store_place_yields.mp stored⟩

theorem declare_yields {k : BindingId} (ran : (declare desc).Yields prog k after) :
    ∃ next descs, numberAfter prog.nextTemp desc.registers = .ok next ∧
      prog.descriptors.insert desc = .ok (k, descs) ∧
        after = { prog with nextTemp := next, descriptors := descs } := by
  obtain ⟨_, next, number, rest⟩ := yields_bind_of noteOperands_yields ran
  rw [yields_get_bind, yields_lift_bind] at rest
  obtain ⟨⟨_, descs⟩, inserted, ended⟩ := rest
  simp only [yields_modify_bind, yields_pure] at ended
  obtain ⟨rfl, rfl⟩ := ended
  exact ⟨next, descs, number, inserted, rfl⟩

theorem allocate_yields :
    (allocate count).Yields prog (first, stop) after ↔ prog.nextTemp.toNat + count < UInt32.size ∧
      prog.nextTemp.toNat + count ≤ prog.tempLimit.toNat ∧ first = prog.nextTemp ∧
      stop = (prog.nextTemp.toNat + count).toUInt32 ∧ after = { prog with nextTemp := stop } := by
  unfold allocate
  rw [yields_get_bind]
  simp only
  split
  · next room =>
    rw [yields_bind]
    simp only [yields_set, yields_pure, Prod.mk.injEq]
    constructor
    · rintro ⟨_, _, rfl, ⟨rfl, rfl⟩, rfl⟩
      exact ⟨room.1, room.2, rfl, rfl, rfl⟩
    · rintro ⟨_, _, rfl, rfl, rfl⟩
      exact ⟨(), _, rfl, ⟨rfl, rfl⟩, rfl⟩
  · next full =>
    constructor
    · intro no
      exact absurd no not_yields_refuse
    · rintro ⟨small, inside, _⟩
      exact absurd ⟨small, inside⟩ full

theorem renameAfter_yields (ran : (renameAfter k r replacement).Yields prog () after) :
    ∃ later, prog.laterInstructions k = .ok later ∧ after = { prog with
        instructions := later.foldl (fun instructions k =>
          instructions.modify k (·.rename r replacement)) prog.instructions } := by
  unfold renameAfter at ran
  rw [yields_get_bind, yields_lift_bind] at ran
  simp only [yields_modify] at ran
  exact ran

/-! ### What stays -/

/-- Instructions may be added and changed, and registers be handed out, but the rest stays. -/
structure Keeps (prog after : Program) : Prop where
  descriptors : after.descriptors = prog.descriptors
  preamble : after.preamble = prog.preamble
  uniforms : after.uniforms = prog.uniforms
  blockNames : after.blockNames = prog.blockNames
  nextTemp : prog.nextTemp ≤ after.nextTemp
  stored : prog.instructions.size ≤ after.instructions.size

namespace Keeps

theorem refl (prog : Program) : prog.Keeps prog :=
  ⟨rfl, rfl, rfl, rfl, UInt32.le_refl _, Nat.le_refl _⟩

theorem trans {mid : Program} (first : prog.Keeps mid) (second : mid.Keeps after) :
    prog.Keeps after :=
  ⟨second.descriptors.trans first.descriptors, second.preamble.trans first.preamble,
    second.uniforms.trans first.uniforms, second.blockNames.trans first.blockNames,
    UInt32.le_trans first.nextTemp second.nextTemp, Nat.le_trans first.stored second.stored⟩

end Keeps

section

variable {placing : Layout → Except Breach Layout} (adds : prog.Adds after inst k placing)

include adds

/-- The table has one more entry. -/
theorem Adds.size_eq : after.instructions.size = prog.instructions.size + 1 := by
  obtain ⟨_, _, inserted, _, rfl⟩ := adds
  exact (insert_eq_ok inserted).2.1

theorem Adds.index_eq : k.index = prog.instructions.size := by
  obtain ⟨_, _, inserted, _, rfl⟩ := adds
  exact (insert_eq_ok inserted).1

theorem Adds.keeps : prog.Keeps after := by
  have grown := adds.size_eq
  obtain ⟨_, _, _, _, rfl⟩ := adds
  exact ⟨rfl, rfl, rfl, rfl, UInt32.le_refl _, grown ▸ Nat.le_succ _⟩

end

theorem keeps_setInstruction (k : InstructionId) (inst : Instruction) (prog : Program) :
    prog.Keeps (setInstruction k inst prog) :=
  ⟨rfl, rfl, rfl, rfl, UInt32.le_refl _, Nat.le_of_eq (size_set ..).symm⟩

theorem keeps_exportRegister (r : Register) (prog : Program) :
    prog.Keeps (exportRegister r prog) := by
  unfold exportRegister
  split <;> exact ⟨rfl, rfl, rfl, rfl, UInt32.le_refl _, Nat.le_refl _⟩

theorem keeps_insertAllBefore (ran : (insertAllBefore anchor sequence).Yields prog keys after) :
    prog.Keeps after := by
  induction sequence generalizing prog keys with
  | nil =>
    obtain ⟨_, rfl⟩ := yields_pure.mp ran
    exact .refl _
  | cons inst rest ih =>
    obtain ⟨_, _, inserts, later⟩ := yields_bind.mp ran
    obtain ⟨_, insertsRest, _⟩ := yields_bind_pure.mp later
    exact (insertBefore_yields inserts).keeps.trans (ih insertsRest)

theorem keeps_replace (ran : (replace k sequence).Yields prog keys after) : prog.Keeps after := by
  obtain ⟨_, _, inserts, rest⟩ := yields_bind.mp ran
  obtain ⟨_, _, _, ended⟩ := yields_bind_of changeLayout_yields rest
  obtain ⟨_, rfl⟩ := yields_pure.mp ended
  exact (keeps_insertAllBefore inserts).trans ⟨rfl, rfl, rfl, rfl, UInt32.le_refl _, Nat.le_refl _⟩

/-! ### Registers in use -/

/-- A register is in use for all the program knows: a virtual one has a number below the
next fresh one. -/
def Noted (prog : Program) (r : Register) : Prop :=
  r.isVirtual = true → r.number < prog.nextTemp

theorem Noted.mono (noted : prog.Noted r) (grown : prog.nextTemp ≤ after.nextTemp) :
    after.Noted r :=
  fun virt => UInt32.lt_of_lt_of_le (noted virt) grown

/-- There are no more virtual registers in use than numbers below the next fresh one. -/
theorem length_le_of_noted {regs : List Register} (distinct : regs.Nodup)
    (noted : ∀ r ∈ regs, r.isVirtual = true ∧ prog.Noted r) :
    regs.length ≤ prog.nextTemp.toNat := by
  have numbers : (regs.map fun r => r.number.toNat).Nodup := by
    refine List.Nodup.map_on ?_ distinct
    have temps : ∀ r ∈ regs, r = .temp r.number := by
      intro r inside
      obtain ⟨kind, number⟩ := r
      obtain rfl : kind = .temp := eq_of_beq (noted _ inside).1
      rfl
    intro first inside other inside' same
    rw [temps first inside, temps other inside', UInt32.toNat_inj.mp same]
  have below : regs.map (fun r => r.number.toNat) ⊆ List.range prog.nextTemp.toNat := by
    intro number mem
    obtain ⟨r, inside, rfl⟩ := mem_map.mp mem
    obtain ⟨virt, isNoted⟩ := noted r inside
    exact mem_range.mpr (UInt32.lt_iff_toNat_lt.mp (isNoted virt))
  simpa using (List.Nodup.subperm numbers below).length_le

/-- The least number above the virtual ones of some registers. -/
def numberAbove (regs : List Register) : Nat :=
  regs.foldr (fun r least => if r.isVirtual then max (r.number.toNat + 1) least else least) 0

theorem numberAbove_append (regs others : List Register) :
    numberAbove (regs ++ others) = max (numberAbove regs) (numberAbove others) := by
  induction regs with
  | nil => exact (Nat.zero_max _).symm
  | cons r rest ih =>
    show (if r.isVirtual then max _ (numberAbove (rest ++ others))
      else numberAbove (rest ++ others)) = max (if r.isVirtual then _ else _) _
    rw [ih]
    split
    · exact (Nat.max_assoc _ _ _).symm
    · rfl

theorem number_lt_numberAbove (mem : r ∈ operands) (virt : r.isVirtual = true) :
    r.number.toNat < numberAbove operands := by
  obtain ⟨front, back, rfl⟩ := append_of_mem mem
  rw [numberAbove_append]
  have here : numberAbove (r :: back) = max (r.number.toNat + 1) (numberAbove back) := if_pos virt
  omega

/-- After some operands have been noted, the next fresh number is the least one that is above
them and not below the one before. -/
theorem toNat_of_numberAfter {next last : UInt32} (counted : numberAfter next operands = .ok last) :
    last.toNat = max next.toNat (numberAbove operands) := by
  induction operands generalizing next with
  | nil =>
    cases counted
    exact (Nat.max_zero _).symm
  | cons op rest ih =>
    unfold numberAfter at counted
    rw [foldlM_cons] at counted
    obtain ⟨between, step, later⟩ := except_bind_eq_ok.mp counted
    rw [ih later]
    show _ = max _ (if op.isVirtual then max _ (numberAbove rest) else numberAbove rest)
    cases virt : op.isVirtual with
    | false =>
      rw [virt] at step
      cases step
      rfl
    | true =>
      rw [virt, Bool.not_true, if_neg Bool.false_ne_true] at step
      split at step
      · cases step
      · next inside =>
        cases step
        have notLast : op.number.toNat ≠ 4294967295 := fun same => inside (UInt32.toNat_inj.mp same)
        have bound := op.number.toNat_lt
        have following : (op.number + 1).toNat = op.number.toNat + 1 := by
          rw [UInt32.toNat_add]
          exact Nat.mod_eq_of_lt (by simp only [UInt32.reduceToNat]; omega)
        have larger : (max next (op.number + 1)).toNat = max next.toNat (op.number.toNat + 1) := by
          rw [← following]
          show (if next ≤ op.number + 1 then op.number + 1 else next).toNat = _
          split
          · next below => exact (Nat.max_eq_right (UInt32.le_iff_toNat_le.mp below)).symm
          · next above =>
            exact (Nat.max_eq_left (Nat.le_of_lt (UInt32.lt_iff_toNat_lt.mp
              (UInt32.not_le.mp above)))).symm
        rw [larger, if_pos rfl]
        exact Nat.max_assoc _ _ _

theorem numberAfter_eq_ok {next last : UInt32} (counted : numberAfter next operands = .ok last) :
    next ≤ last ∧ ∀ r ∈ operands, r.isVirtual = true → r.number < last := by
  have isLast := toNat_of_numberAfter counted
  refine ⟨UInt32.le_iff_toNat_le.mpr (by omega), fun r mem virt => UInt32.lt_iff_toNat_lt.mpr ?_⟩
  have above := number_lt_numberAbove mem virt
  omega

/-- Every register that an instruction or a descriptor names is in use. -/
structure Closed (prog : Program) : Prop where
  operands : ∀ key inst, prog.instructions.get? key = some inst →
    ∀ reg ∈ inst.dests ++ inst.sources, prog.Noted reg
  members : ∀ key desc, prog.descriptors.get? key = some desc →
    ∀ reg ∈ desc.registers, prog.Noted reg

theorem closed_empty (name : String) : (empty name).Closed where
  operands _ _ found := by cases found
  members _ _ found := by cases found

namespace Closed

section

variable (closed : prog.Closed)

include closed

theorem mono (instructions : after.instructions = prog.instructions)
    (descs : after.descriptors = prog.descriptors) (grown : prog.nextTemp ≤ after.nextTemp) :
    after.Closed where
  operands k inst found r mem := by
    rw [instructions] at found
    exact (closed.operands k inst found r mem).mono grown
  members k desc found r mem := by
    rw [descs] at found
    exact (closed.members k desc found r mem).mono grown

theorem adds {placing : Layout → Except Breach Layout}
    (noted : ∀ r ∈ inst.dests ++ inst.sources, prog.Noted r)
    (adds : prog.Adds after inst k placing) : after.Closed := by
  obtain ⟨instructions, layout, inserted, _, rfl⟩ := adds
  obtain ⟨_, _, entries⟩ := insert_eq_ok inserted
  refine ⟨fun one found isFound => ?_, closed.members⟩
  rw [entries] at isFound
  split at isFound
  · cases isFound
    exact noted
  · exact closed.operands one found isFound

theorem append (ran : (Program.append blk inst).Yields prog k after) : after.Closed := by
  obtain ⟨next, counted, added⟩ := append_yields ran
  obtain ⟨grown, below⟩ := numberAfter_eq_ok counted
  have closed' : Closed { prog with nextTemp := next } := closed.mono rfl rfl grown
  exact closed'.adds below added

theorem declare {k : BindingId} (ran : (Program.declare desc).Yields prog k after) :
    after.Closed := by
  obtain ⟨next, descs, counted, inserted, rfl⟩ := declare_yields ran
  obtain ⟨grown, below⟩ := numberAfter_eq_ok counted
  obtain ⟨_, _, entries⟩ := insert_eq_ok inserted
  have closed' : Closed { prog with nextTemp := next } := closed.mono rfl rfl grown
  refine ⟨closed'.operands, fun one found isFound => ?_⟩
  rw [entries] at isFound
  split at isFound
  · cases isFound
    exact below
  · exact closed'.members one found isFound

theorem modify_instructions (keys : List InstructionId) (change : Instruction → Instruction)
    (noted : ∀ inst, (∀ r ∈ inst.dests ++ inst.sources, prog.Noted r) →
      ∀ r ∈ (change inst).dests ++ (change inst).sources, prog.Noted r) : Closed { prog with
      instructions := keys.foldl (fun instructions k => instructions.modify k change)
        prog.instructions } := by
  induction keys generalizing prog with
  | nil => exact closed
  | cons k rest ih =>
    have closed' : Closed { prog with
        instructions := prog.instructions.modify k change } := by
      refine ⟨fun one found isFound => ?_, closed.members⟩
      rw [get?_modify] at isFound
      split at isFound
      · obtain ⟨orig, isOriginal, rfl⟩ := Option.map_eq_some_iff.mp isFound
        exact noted orig (closed.operands one orig isOriginal)
      · exact closed.operands one found isFound
    exact ih closed' noted

theorem renameAfter (noted : prog.Noted replacement)
    (ran : (Program.renameAfter k r replacement).Yields prog () after) : after.Closed := by
  obtain ⟨later, _, rfl⟩ := renameAfter_yields ran
  refine closed.modify_instructions later _ fun inst pre named mem => ?_
  unfold Instruction.rename at mem
  simp only [← map_append, mem_map] at mem
  obtain ⟨orig, inside, rfl⟩ := mem
  split
  · exact noted
  · exact pre orig inside

end

end Closed

/-- The registers handed out are in use from then on, and were not before. -/
theorem noted_of_allocate (ran : (allocate 1).Yields prog (first, stop) after) :
    after.Noted (.temp first) ∧ ¬ prog.Noted (.temp first) ∧ prog.nextTemp ≤ after.nextTemp := by
  obtain ⟨small, _, rfl, rfl, rfl⟩ := allocate_yields.mp ran
  have next : (prog.nextTemp.toNat + 1).toUInt32.toNat = prog.nextTemp.toNat + 1 := by
    rw [Nat.toUInt32_eq, UInt32.toNat_ofNat', Nat.mod_eq_of_lt small]
  refine ⟨fun _ => ?_, fun noted => ?_, ?_⟩
  · rw [UInt32.lt_iff_toNat_lt]
    show prog.nextTemp.toNat < (prog.nextTemp.toNat + 1).toUInt32.toNat
    omega
  · exact absurd (noted rfl) (UInt32.lt_irrefl _)
  · rw [UInt32.le_iff_toNat_le]
    show prog.nextTemp.toNat ≤ (prog.nextTemp.toNat + 1).toUInt32.toNat
    omega

/-! ### Running out -/

/-- A program has no room for what an error says is missing. -/
inductive Exhausted (prog : Program) : ResolutionError → Prop where
  | registers {requested : Nat} :
    prog.tempLimit.toNat < prog.nextTemp.toNat + requested →
    Exhausted prog (.outOfRegisters requested)
  | instructions : prog.instructionLimit ≤ prog.instructions.size →
    Exhausted prog .outOfInstructions

section

variable {account : Program → Failure → Prop}

theorem fails_changeLayout
    (accounted : ∀ cause, change prog.layout = .error cause → account prog (.breach cause)) :
    (changeLayout change).FailsFor account prog := by
  unfold changeLayout
  rw [fails_get_bind]
  exact fails_lift_bind accounted fun _ _ => fails_modify

/-- An instruction is refused, or there is no key for it, or it is stored and has no place. -/
theorem fails_create_place
    (refused : prog.instructionLimit ≤ prog.instructions.size →
      account prog (.error .outOfInstructions))
    (full : ∀ cause, prog.instructions.insert inst = .error cause → account prog (.breach cause))
    (placeless : ∀ k instructions cause, prog.instructions.insert inst = .ok (k, instructions) →
      placing k prog.layout = .error cause →
      account { prog with instructions := instructions } (.breach cause)) :
    (create inst >>= fun k => changeLayout (placing k) >>= fun _ => pure k).FailsFor account
    prog := by
  have stores : (store inst).FailsFor account prog := by
    unfold store
    rw [fails_get_bind]
    exact fails_lift_bind full fun _ _ => fails_pure
  unfold create
  refine fails_bind ?_ fun k _ ran => ?_
  · rw [fails_get_bind]
    split
    · next limited => exact fails_stop (refused limited)
    · exact stores
  · rw [yields_get_bind] at ran
    split at ran
    · exact absurd ran not_yields_refuse
    · obtain ⟨instructions, inserted, rfl⟩ := store_yields.mp ran
      exact fails_bind (fails_changeLayout fun cause => placeless k instructions cause inserted)
        fun _ _ _ => fails_pure

/-- Refused registers leave the program as it is. -/
theorem fails_allocate
    (refused : prog.tempLimit.toNat < prog.nextTemp.toNat + count →
      account prog (.error (.outOfRegisters count))) : (allocate count).FailsFor account prog := by
  unfold allocate
  rw [fails_get_bind]
  simp only
  split
  · exact (@yields_set _ _ _ _ () |>.mpr rfl).fails_bind fails_pure
  · next full =>
    -- Even the largest limit is below the size of a number.
    have small := prog.tempLimit.toNat_lt
    refine fails_stop (refused ?_)
    simp only [UInt32.size] at full
    omega

end

/-- A refused instruction leaves the program as it is. -/
theorem stops_create_place {reason : Program → ResolutionError → Prop}
    (refused : prog.instructionLimit ≤ prog.instructions.size → reason prog .outOfInstructions) :
    (create inst >>= fun k => changeLayout (placing k) >>= fun _ =>
      pure k).FailsFor (onError reason) prog :=
  fails_create_place refused (fun _ _ => trivial) fun _ _ _ _ _ => trivial

theorem stops_insertAllBefore :
    (insertAllBefore anchor sequence).FailsFor (onError Exhausted) prog := by
  induction sequence generalizing prog with
  | nil => exact fails_pure
  | cons inst rest ih =>
    exact fails_bind (stops_create_place .instructions) fun _ _ _ =>
      fails_bind ih fun _ _ _ => fails_pure

theorem stops_replace : (replace k sequence).FailsFor (onError Exhausted) prog :=
  fails_bind stops_insertAllBefore fun _ _ _ =>
    fails_bind (fails_changeLayout fun _ _ => trivial) fun _ _ _ => fails_pure

end Program

/-! ### Computations on the parts of a pass -/

namespace Pass

variable {α : Type} {pass after : Pass} {v : α} {step : Step Tracking α}

theorem onProgram_yields {step : Step Program α} : (onProgram step).Yields pass v after ↔
      ∃ prog, step.Yields pass.program v prog ∧ after = { pass with program := prog } :=
      yields_within

theorem onGraph_yields {step : Step ChainGraph α} : (onGraph step).Yields pass v after ↔
      ∃ g, step.Yields pass.graph v g ∧ after = { pass with graph := g } :=
  yields_within

theorem withCache_yields :
    (withCache blk step).Yields pass v after ↔ ∃ track,
      step.Yields ⟨.empty blk, pass.graph⟩ v track ∧
        after = { pass with graph := track.graph } := by
  unfold Step.Yields withCache
  constructor
  · rintro ⟨ended, rfl⟩
    exact ⟨_, ⟨ended, rfl⟩, rfl⟩
  · rintro ⟨track, ⟨ended, rfl⟩, rfl⟩
    exact ⟨ended, rfl⟩

theorem fails_withCache {account : Pass → Failure → Prop} :
    (withCache blk step).FailsFor account pass ↔
      step.FailsFor (fun inner => account { pass with graph := inner.graph })
        ⟨.empty blk, pass.graph⟩ := Iff.rfl

theorem count_yields {change : Stats → Stats} :
    (count change).Yields pass () after ↔ after = { pass with stats := change pass.stats } :=
  yields_modify

end Pass

end RegisterChains

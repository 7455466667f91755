/-
This file says what a walk comes to know and what it forgets. Copies that are made are learned,
registers that are written are forgotten, and nothing else is known afterwards. The constraints
and the program stay as they are.
-/

import RegisterChains.Proofs.CacheUpkeep
import RegisterChains.Proofs.Repair.Handling

namespace RegisterChains

open Tracking

/-- The register that a copy fills and the one it is taken from. -/
abbrev PendingCopy.pair (copy : PendingCopy) : Register × Register := (copy.value, copy.holder)

namespace Walk

open List Step

variable {setting : Setting} {place : UInt32} {k : InstructionId} {walk mid after : Walk}
  {v holder : Register} {owned : Bool} {pairs pairs' : List (Register × Register)}
  {origin : Option InstructionId} {written' written : List Register}

/-- After some registers were written, copies are known that were known before or that are
among these pairs. -/
structure Learns (walk : Walk) (written : List Register) (pairs : List (Register × Register))
    (owned : Bool) (after : Walk) : Prop
    extends walk.tracking.Tends (pairs.map Prod.snd) after.tracking where
  program : after.program = walk.program
  hoisted : ∀ pair ∈ after.hoisted.pairs, pair ∈ walk.hoisted.pairs
  deferred : ∀ copy ∈ after.deferred, copy ∈ walk.deferred
  knows : ∀ value dest isOwned, after.tracking.Knows value dest isOwned →
    (walk.tracking.Knows value dest isOwned ∧ value ∉ written ∧ dest ∉ written) ∨
      (isOwned = owned ∧ (value, dest) ∈ pairs)

theorem Learns.refl (sound : walk.tracking.Sound) (owned : Bool) : Learns walk [] [] owned walk :=
  ⟨sound.tends_refl, rfl, fun _ hoisted => hoisted, fun _ waiting => waiting,
    fun _ _ _ known => .inl ⟨known, not_mem_nil, not_mem_nil⟩⟩

theorem Learns.trans (first : Learns walk written pairs owned mid)
    (second : Learns mid written' pairs' owned after) :
    Learns walk (written ++ written') (pairs ++ pairs') owned after where
  toTends := by
    rw [map_append]
    exact first.toTends.trans second.toTends
  program := second.program.trans first.program
  hoisted pair mem := first.hoisted pair (second.hoisted pair mem)
  deferred copy waiting := first.deferred copy (second.deferred copy waiting)
  knows v dest isOwned known := by
    rcases second.knows v dest isOwned known with ⟨pre, apart⟩ | ⟨isNew, paired⟩
    · rcases first.knows v dest isOwned pre with ⟨older, apart'⟩ | ⟨isNew, paired⟩
      · simp only [mem_append, not_or]
        exact .inl ⟨older, ⟨apart'.1, apart.1⟩, apart'.2, apart.2⟩
      · exact .inr ⟨isNew, mem_append_left _ paired⟩
    · exact .inr ⟨isNew, mem_append_right _ paired⟩

/-- What was known before and is not written is still known. -/
structure Retains (walk : Walk) (written : List Register) (pairs : List (Register × Register))
    (owned : Bool) (after : Walk) : Prop extends Learns walk written pairs owned after where
  keeps : ∀ value dest isOwned, walk.tracking.Knows value dest isOwned → value ∉ written →
    dest ∉ written → dest ∉ pairs.map Prod.snd → after.tracking.Knows value dest isOwned

theorem Retains.refl (sound : walk.tracking.Sound) (owned : Bool) : Retains walk [] [] owned walk :=
  ⟨.refl sound owned, fun _ _ _ known _ _ _ => known⟩

theorem Retains.trans (first : Retains walk written pairs owned mid)
    (second : Retains mid written' pairs' owned after) :
    Retains walk (written ++ written') (pairs ++ pairs') owned after := by
  refine ⟨first.toLearns.trans second.toLearns, fun v dest isOwned known value holder unheld => ?_⟩
  simp only [map_append, mem_append, not_or] at value holder unheld
  exact second.keeps v dest isOwned
    (first.keeps v dest isOwned known value.1 holder.1 unheld.1) value.2 holder.2 unheld.2

/-- A register is written, and then a copy is recorded. -/
theorem record_yields {written : Register} (ran : (do
      onTracking (modify (·.noteDef written))
      let _ ← onTracking (recordCopy v holder origin place owned) :
        Step Walk Unit).Yields walk () after) : ∃ result track,
      (recordCopy v holder origin place owned).Yields (walk.tracking.noteDef written) result
        track ∧ after = { walk with cache := track.cache, graph := track.graph } := by
  obtain ⟨_, _, noted, rest⟩ := yields_bind_of onTracking_yields ran
  obtain rfl := yields_modify.mp noted
  obtain ⟨result, track, recorded, ended⟩ := yields_bind_of onTracking_yields rest
  obtain ⟨_, rfl⟩ := yields_pure.mp ended
  exact ⟨result, track, recorded, rfl⟩

section

variable (sound : walk.tracking.Sound) {copy : InstructionId}

include sound

/-- A register is written, and then two registers hold the same value. -/
theorem learns_of_record {written : Register} {result : Option CopyId} {track : Tracking}
    (ran : (recordCopy v holder origin place owned).Yields
      (walk.tracking.noteDef written) result track) : Retains walk [written] [(v, holder)] owned
      { walk with cache := track.cache, graph := track.graph } := by
  have noted := (sound.noteDef written).1
  have records := noted.sound.recordCopy ran
  refine ⟨⟨noted.trans records.tends, rfl, fun _ hoisted => hoisted, fun _ waiting => waiting,
    fun one dest isOwned known => ?_⟩, fun one dest isOwned known value holder unheld => ?_⟩
  · rcases records.of_knows known with pre | ⟨rfl, rfl, rfl⟩
    · obtain ⟨older, apart⟩ := (sound.knows_noteDef written).mp pre
      exact .inl ⟨older, by simpa using apart⟩
    · exact .inr ⟨rfl, mem_singleton_self _⟩
  · exact records.keeps ((sound.knows_noteDef written).mpr
      ⟨known, ne_of_not_mem_cons value, ne_of_not_mem_cons holder⟩) (ne_of_not_mem_cons unheld)

theorem remember_yields (ran : (remember place v holder copy owned).Yields walk () after) :
    Retains walk [holder] [(v, holder)] owned after := by
  obtain ⟨_, _, recorded, rfl⟩ := record_yields ran
  exact learns_of_record sound recorded

theorem rememberAll_yields (ran : (rememberAll place copy pairs).Yields walk () after) :
    Retains walk (pairs.map Prod.snd) pairs true after := by
  induction pairs generalizing walk with
  | nil =>
    obtain ⟨_, rfl⟩ := yields_pure.mp ran
    exact .refl sound true
  | cons pair rest ih =>
    obtain ⟨v, holder⟩ := pair
    obtain ⟨_, _, remembers, later⟩ := yields_bind.mp ran
    have retains := remember_yields sound remembers
    exact retains.trans (ih retains.sound later)

theorem recordPending_yields {copy : PendingCopy}
    (ran : (recordPending place copy).Yields walk () after) :
    Retains walk [copy.value] [copy.pair] false after := by
  obtain ⟨_, _, recorded, rfl⟩ := record_yields ran
  exact learns_of_record sound recorded

theorem recordAllPending_yields {copies : List PendingCopy} {last : InstructionId}
    (ran : (recordAllPending place k copies).Yields walk last after) :
    Retains walk (copies.map (·.value)) (copies.map (·.pair)) false after ∧
      last = (k :: copies.map (·.instruction)).getLast (by simp) := by
  induction copies generalizing walk k with
  | nil =>
    obtain ⟨rfl, rfl⟩ := yields_pure.mp ran
    exact ⟨.refl sound false, rfl⟩
  | cons copy rest ih =>
    obtain ⟨_, _, records, later⟩ := yields_bind.mp ran
    have retains := recordPending_yields sound records
    obtain ⟨others, isLast⟩ := ih retains.sound later
    refine ⟨retains.trans others, isLast.trans ?_⟩
    rw [map_cons, getLast_cons_cons]

end

/-! ### What an instruction does to the known copies -/

section

variable (sound : walk.tracking.Sound)

include sound

theorem learns_noteUses (place : UInt32) (ops : List Register) (owned : Bool) :
    Retains walk [] [] owned (noteUses place ops walk) := by
  obtain ⟨used, knows⟩ := sound.noteUses ops place
  exact ⟨⟨used, rfl, fun _ hoisted => hoisted, fun _ waiting => waiting,
    fun one dest isOwned known => .inl ⟨(knows one dest isOwned).mp known, not_mem_nil,
      not_mem_nil⟩⟩, fun one dest isOwned known _ _ _ => (knows one dest isOwned).mpr known⟩

theorem learns_noteDef (r : Register) (owned : Bool) :
    Retains walk [r] [] owned (noteDef walk r) := by
  refine ⟨⟨(sound.noteDef r).1, rfl, fun pair hoisted => (Assoc.mem_pairs_filter.mp hoisted).1,
    fun _ waiting => waiting, fun one dest isOwned known => ?_⟩,
    fun one dest isOwned known v holder _ => (sound.knows_noteDef r).mpr ⟨known,
      ne_of_not_mem_cons v, ne_of_not_mem_cons holder⟩⟩
  obtain ⟨older, apart⟩ := (sound.knows_noteDef r).mp known
  exact .inl ⟨older, by simpa using apart⟩

theorem learns_noteDefs (regs : List Register) (owned : Bool) :
    Retains walk regs [] owned (regs.foldl noteDef walk) := by
  induction regs generalizing walk with
  | nil => exact .refl sound owned
  | cons r rest ih =>
    have retains := learns_noteDef sound r owned
    exact retains.trans (ih retains.sound)

theorem learns_clear (owned : Bool) (ran : (onTracking clear).Yields walk () after) :
    Learns walk [] [] owned after := by
  obtain ⟨track, clears, rfl⟩ := onTracking_yields.mp ran
  obtain rfl := sound.eq_removeAll clears
  obtain ⟨cleared, gone, _⟩ := sound.removeAll
  refine ⟨cleared, rfl, fun _ hoisted => hoisted, fun _ waiting => waiting, ?_⟩
  rintro one dest isOwned ⟨id, record, found, _⟩
  cases (gone id).symm.trans found

theorem learns_finish (owned : Bool) (ran : (onTracking finish).Yields walk () after) :
    Learns walk [] [] owned after := learns_clear sound owned ran

/-- A copy behind a replaced instruction counts when the walk reaches it. -/
theorem recordDeferred_yields (ran : (recordDeferred place k).Yields walk () after) :
    ∃ copies : List PendingCopy, (∀ copy ∈ copies, copy ∈ walk.deferred ∧ copy.instruction = k) ∧
      Retains walk (copies.map (·.value)) (copies.map (·.pair)) false after := by
  unfold recordDeferred at ran
  rw [yields_get_bind] at ran
  simp only at ran
  split at ran
  · next copy isCopy =>
    rw [yields_modify_bind] at ran
    have waiting := mem_of_find?_eq_some isCopy
    have reached := find?_some isCopy
    refine ⟨[copy], fun one mem => ?_, ?_⟩
    · rw [mem_singleton.mp mem]
      exact ⟨waiting, by simpa using reached⟩
    · have sound' : ({ walk with deferred := walk.deferred.erase copy } : Walk).tracking.Sound :=
        sound
      have learns := recordPending_yields sound' ran
      exact ⟨{ learns with deferred := fun one mem => mem_of_mem_erase (learns.deferred one mem) },
        learns.keeps⟩
  · obtain ⟨_, rfl⟩ := yields_pure.mp ran
    exact ⟨[], forall_mem_nil _, .refl sound false⟩

/-- When all runs of an instruction hold, what it writes is forgotten, and the copies behind it
are learned. Unless the block may be descheduled, the rest is retained. -/
theorem conclude_yields {inst : Instruction} {pending : List PendingCopy}
    {next : Option InstructionId} (found : walk.program.instruction k = .ok inst)
    (ran : (conclude setting place k pending).Yields walk next after) :
    ∃ copies : List PendingCopy, (∀ copy ∈ copies, copy ∈ walk.deferred ∧ copy.instruction = k) ∧
      Learns walk (inst.dests ++ (copies ++ pending).map (·.value))
        ((copies ++ pending).map (·.pair)) false after ∧
      walk.program.layout.nextOf ((k :: pending.map (·.instruction)).getLast (by simp)) =
        .ok next ∧ (setting.target.deschedules inst = false →
        Retains walk (inst.dests ++ (copies ++ pending).map (·.value))
          ((copies ++ pending).map (·.pair)) false after) := by
  have read := yields_instruction_bind found ran
  rw [yields_modify_bind, yields_modify_bind] at read
  have used := learns_noteUses sound place inst.sources false
  have written := used.trans (learns_noteDefs used.sound inst.dests false)
  have ending : ∀ {cleared : Walk}, Learns walk inst.dests [] false cleared → (do
        recordDeferred place k
        let last ← recordAllPending place k pending
        (← get).program.layout.nextOf last : Step Walk (Option InstructionId)).Yields
          cleared next after →
      ∃ copies : List PendingCopy, (∀ copy ∈ copies, copy ∈ walk.deferred ∧ copy.instruction = k) ∧
        Retains cleared ((copies ++ pending).map (·.value))
          ((copies ++ pending).map (·.pair)) false after ∧
        walk.program.layout.nextOf ((k :: pending.map (·.instruction)).getLast (by simp)) =
          .ok next := by
    intro cleared forgets ran
    obtain ⟨_, _, defers, rest⟩ := yields_bind.mp ran
    obtain ⟨copies, waiting, deferred⟩ := recordDeferred_yields forgets.sound defers
    obtain ⟨last, told, records, asks⟩ := yields_bind.mp rest
    obtain ⟨recorded, isLast⟩ := recordAllPending_yields deferred.sound records
    rw [yields_get_bind] at asks
    obtain ⟨isNext, rfl⟩ := yields_lift.mp asks
    have whole := deferred.trans recorded
    rw [← map_append, ← map_append] at whole
    refine ⟨copies, fun copy mem => ?_, whole, ?_⟩
    · exact ⟨forgets.deferred copy (waiting copy mem).1, (waiting copy mem).2⟩
    · rw [← isLast, ← forgets.program, ← whole.program]
      exact isNext
  split at read
  · next deschedules =>
    rw [yields_report_bind] at read
    obtain ⟨_, _, clears, rest⟩ := yields_bind.mp read
    have cleared := written.toLearns.trans (learns_clear written.sound false clears)
    rw [nil_append, append_nil] at cleared
    obtain ⟨copies, waiting, whole, isNext⟩ := ending cleared rest
    exact ⟨copies, waiting, cleared.trans whole.toLearns, isNext,
      fun stays => absurd (stays.symm.trans deschedules) Bool.false_ne_true⟩
  · obtain ⟨copies, waiting, whole, isNext⟩ := ending written.toLearns read
    have retains := written.trans whole
    exact ⟨copies, waiting, retains.toLearns, isNext, fun _ => retains⟩

end

/-! ### Copies in front of an instruction -/

/-- A copy in the preamble. -/
theorem hoistCopy_yields (sound : walk.tracking.Sound)
    (ran : (hoistCopy place v holder).Yields walk () after) :
    ∃ preamble copy prog stats mid, mid = { walk with
        program := prog.exportRegister holder
        stats := stats
        hoisted := walk.hoisted.insert v holder } ∧ walk.program.preamble = some preamble ∧
      (Program.push preamble (.move holder v)).Yields walk.program copy prog ∧
      (remember place v holder copy false).Yields mid () after ∧
      Learns mid [holder] [(v, holder)] false after := by
  unfold hoistCopy at ran
  rw [yields_get_bind] at ran
  split at ran
  · next preamble isPreamble =>
    obtain ⟨copy, prog, pushed, rest⟩ := yields_bind_of onProgram_yields ran
    obtain ⟨_, _, exported, rest'⟩ := yields_bind_of onProgram_yields rest
    obtain rfl := yields_modify.mp exported
    have rest'' := yields_count_bind.mp rest'
    rw [yields_modify_bind] at rest''
    refine ⟨preamble, copy, prog, _, _, rfl, isPreamble, pushed, rest'', ?_⟩
    exact (remember_yields (by exact sound) rest'').toLearns
  · exact absurd ran not_yields_contradict

/-- Copies that are made together in front of an instruction. -/
theorem copyInFront_yields (sound : walk.tracking.Sound)
    (ran : (copyInFront place k pairs).Yields walk () after) :
    ∃ made copy prog stats mid, mid = { walk with program := prog, stats := stats } ∧
      copyInstruction pairs = .ok made ∧ (Program.insertBefore k made).Yields walk.program
      copy prog ∧ (rememberAll place copy pairs).Yields mid () after ∧
      Learns mid (pairs.map Prod.snd) pairs true after := by
  obtain ⟨made, isMade, rest⟩ := yields_lift_bind.mp ran
  obtain ⟨copy, prog, inserted, rest'⟩ := yields_bind_of onProgram_yields rest
  have rest'' := yields_count_bind.mp rest'
  refine ⟨made, copy, prog, _, _, rfl, isMade, inserted, rest'', ?_⟩
  exact (rememberAll_yields (by exact sound) rest'').toLearns

end Walk

end RegisterChains

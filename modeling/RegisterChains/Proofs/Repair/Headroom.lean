/-
This file proves that a walk ends before its counters do. Every line that the walk passes, and every
line that it still has ahead, has a key of its own, so there are no more visits than keys. A visit
starts over only when a sample loses destinations, of which it has less than 32, so no visit looks
at more than 64 runs. Both counters can only run out when the table of instructions is full.
-/

import RegisterChains.Proofs.Repair.Advancing
import RegisterChains.Proofs.Repair.Failing

namespace RegisterChains

open List MachineSpec Step

theorem Instruction.Encodable.slack_lt {inst : Instruction} {relaxes : Bool}
    (encodable : inst.Encodable relaxes) : inst.slack < 32 := by
  unfold slack
  split
  · next isSample => exact encodable.width isSample
  · decide

namespace Walk

variable {spec : MachineSpec} {options : Options} {level : Option Level} {place : UInt32}
  {k : InstructionId} {run : OperandRun} {walk after : Walk} {inst ch : Instruction}
  {ops : List Register} {relaxes : Bool} {order later : List BlockId} {blk : BlockId}
  {copies : List PendingCopy} {placed hoists : List (Register × Register)}

/-! ### Lines that keep to their ranges -/

theorem Mends.encodable {made : List Instruction} {next : UInt32} (mends : Mends
    ⟨spec.target, options, level⟩ walk run inst ops next placed hoists made ch copies)
    (mem : run ∈ MachineSpec.runs inst)
    (encodable : inst.Encodable relaxes) : ch.Encodable relaxes := by
  cases mends with
  | fits => exact encodable
  | reordered reordered =>
    obtain ⟨_, _, _, _, reorders⟩ := reordered.order
    exact encodable.reorder mem reorders
  | substituted substituted => exact encodable.replace substituted.replaced
  | copiedIn _ replaced _ _ | copiedOut _ replaced _ => exact encodable.replace replaced

/-- The lines ahead keep to their ranges. -/
def encoded (spec : MachineSpec) (options : Options) (pos : Position order later blk) :
    Region spec options where
  order := order
  done := []
  later := later
  block := blk
  position := pos
  holds inst := inst.Encodable options.relaxEncodings
  lasting := {
    move := Instruction.encodable_move _
    mended := fun mends mem encodable => mends.encodable mem encodable
    narrowed := fun relaxes encodable => encodable.narrow relaxes }

variable {pos : Position order later blk} {seen : List InstructionId} {rest : List Line}
  {left bound : Nat} {next : Option InstructionId}

/-- As long as there are keys, there are counts for the runs of the lines ahead. -/
theorem Region.Ahead.full_of_spent {region : Region spec options} {line : Line}
    (ahead : region.Ahead seen walk (line :: rest) left)
    (counted : walk.looked ≤ 64 * (seen.length + 1)) (spent : Stats.limit ≤ walk.looked + 1) :
    walk.Full := by
  have room := ahead.length_le
  rw [length_cons] at room
  have limit : Stats.limit = 2 ^ 64 := rfl
  have capacity : KeyKind.instruction.capacity = 2 ^ 32 := rfl
  unfold Full Program.Full
  omega

/-- The walk stands at the first line ahead, and no visit looked at more than 64 runs. -/
def StandingAt (spec : MachineSpec) (options : Options) (pos : Position order later blk)
    (bound : Nat) (seen : List InstructionId) (walk : Walk) (next : Option InstructionId) : Prop :=
  walk.looked ≤ 64 * seen.length ∧ (encoded spec options pos).AheadAt bound seen walk next

section

variable (standing : StandingAt spec options pos bound seen walk (some k))

include standing

theorem StandingAt.line : ∃ inst rest left,
    (encoded spec options pos).Ahead seen walk ((k, inst) :: rest) left ∧
      walk.looked + 2 * (inst.slack + 1) ≤ 64 * (seen.length + 1) ∧
      seen.length + visits inst + cost rest + left ≤ bound := by
  obtain ⟨counted, ahead⟩ := standing
  obtain ⟨inst, rest, left, ahead, room⟩ := ahead.line
  obtain ⟨front, code, _, _, _, _, encodable, _⟩ := ahead.lines
  have few : inst.slack < 32 := (encodable (k, inst) mem_cons_self).slack_lt
  exact ⟨inst, rest, left, ahead, by omega, room⟩

theorem visit_standing
    (ran : (visit ⟨spec.target, options, level⟩ place k).Yields walk next after) :
    StandingAt spec options pos bound (k :: seen) after next := by
  obtain ⟨inst, rest, left, ahead, counted, room⟩ := standing.line
  obtain ⟨ahead', looked⟩ := ahead.visit room ran
  exact ⟨looked.trans counted, ahead'⟩

/-- An instruction is visited without a breach as long as there are keys. -/
theorem safe_visit
    (small : options.substituteConstants = true → spec.constants.length ≤ UInt32.size) :
    (visit ⟨spec.target, options, level⟩ place k).FailsFor (onBreach Full) walk := by
  have begun : ((encoded spec options pos).visiting level place k seen bound
    (64 * (seen.length + 1))).before walk [] := ⟨rfl, standing.line⟩
  refine Invariant.fails_visit ?_ ?_ ?_ begun ?_
  · rintro walk pending run runs ⟨inst, rest, left, ahead, waiting, counted, _⟩
    obtain ⟨front, code, shown, split, _, _, encodable, _⟩ := ahead.lines
    rw [length_cons] at counted
    exact safe_of_excused (fails_handleRun ahead.sound
      (fun _ => ⟨_, _, _, _, _, shown, pos.body, split⟩)
      (fun _ => encodable (k, inst) mem_cons_self) False.elim False.elim (fun _ => small)
      (fun _ => waiting.own run mem_cons_self) (shown.instruction_of_split split)
      fun _ => ahead.full_of_spent (by omega))
  · rintro walk pending ⟨_, inst, rest, left, ahead, _⟩
    obtain ⟨front, code, shown, split, _⟩ := ahead.lines
    exact (instruction_yields.mpr ⟨shown.instruction_of_split split, rfl⟩).fails
  · rintro walk pending ⟨_, inst, rest, left, ahead, counted, _⟩ spent
    exact fails_stop (ahead.full_of_spent (by omega) (by omega))
  · rintro walk pending ⟨inst, rest, left, ahead, _⟩
    obtain ⟨front, code, shown, split, _⟩ := ahead.lines
    exact safe_of_excused
      (fails_conclude (fun _ => ahead.sound) (fun _ => ⟨_, nextOf_behind shown split⟩)
      fun _ => ⟨inst, shown.instruction_of_split split⟩)

end

theorem visitFrom_standing {remaining : Nat}
    (standing : StandingAt spec options pos bound seen walk next)
    (ran : (visitFrom ⟨spec.target, options, level⟩ remaining next).Yields walk () after) :
    ∃ seen, StandingAt spec options pos bound seen after none := by
  refine visitFrom_keeps (fun walk next =>
    ∃ seen, StandingAt spec options pos bound seen walk next) ?_ ⟨seen, standing⟩ ran
  rintro walk after place k next ⟨seen, standing⟩ visits
  exact ⟨k :: seen, visit_standing standing visits⟩

end Walk

/-! ### Whole programs -/

namespace Pass

open Walk

variable {spec : MachineSpec} {options : Options} {level : Option Level} {pass after : Pass}
  {order later : List BlockId} {blk : BlockId} {bound : Nat}

/-- There is no key left for another instruction. -/
def Full (pass : Pass) : Prop := pass.program.Full

/-- The lines of the blocks ahead keep to their ranges and have keys besides those that were walked
over. -/
structure Provided (relaxes : Bool) (order ahead : List BlockId) (bound : Nat) (pass : Pass) :
    Prop where
  named : ∀ block ∈ order, ∃ name, pass.program.blockNames.get? block = some name
  lines : ∃ seen, pass.Ahead (·.Encodable relaxes) order [] ahead bound seen ∧
    pass.stats.checked ≤ 64 * seen.length

section

variable (pos : Position order later blk)
  (provided : Provided options.relaxEncodings order (blk :: later) bound pass)
  {first : Option InstructionId}

include pos provided

theorem Provided.starts (isFirst : pass.program.layout.firstOf blk = .ok first) : ∃ seen,
      StandingAt spec options pos bound seen ⟨pass, .empty blk, []⟩ first := by
  obtain ⟨_, seen, ahead, counted⟩ := provided
  exact ⟨seen, counted, ahead.starts (encoded spec options pos) isFirst⟩

theorem resolveBlock_provided
    (ran : (resolveBlock ⟨spec.target, options, level⟩ blk).Yields pass () after) :
    Provided options.relaxEncodings order later bound after := by
  obtain ⟨named, seen, ahead, counted⟩ := provided
  have keeps := (resolveBlock_extends ahead.sound ahead.unmarked ran).keeps
  obtain ⟨first, _, _, isFirst, _⟩ := resolveBlock_yields ran
  obtain ⟨walked, visits, looked, ends⟩ := ahead.ends (encoded spec options pos) isFirst ran
  have standing : StandingAt spec options pos bound seen ⟨pass, .empty blk, []⟩ first :=
    ⟨counted, ahead.starts (encoded spec options pos) isFirst⟩
  obtain ⟨seen', counted', there⟩ := visitFrom_standing standing visits
  exact ⟨keeps.blockNames ▸ named, seen', (ends seen' there).forget, looked.trans_le counted'⟩

section

variable (small : options.substituteConstants = true → spec.constants.length ≤ UInt32.size)

include small

/-- The lines of a block are visited without a breach as long as there are keys. The places of the
block run out no earlier than the keys. -/
theorem safe_visitFrom (isFirst : pass.program.layout.firstOf blk = .ok first) :
    (visitFrom ⟨spec.target, options, level⟩ 0xffffffff first).FailsFor (onBreach Walk.Full)
      ⟨pass, .empty blk, []⟩ := by
  obtain ⟨seen, standing⟩ := provided.starts pos isFirst
  refine fails_visitFrom (fun walked walk next => ∃ seen, walked ≤ seen.length ∧
    StandingAt spec options pos bound seen walk next) ?_ ?_ ?_
    ⟨seen, Nat.zero_le _, standing⟩ (by decide)
  · rintro walked walk after place k next ⟨seen, few, standing⟩ visits
    exact ⟨k :: seen, Nat.succ_le_succ few, visit_standing standing visits⟩
  · rintro walked walk place k ⟨seen, _, standing⟩
    exact safe_visit standing small
  · rintro walked walk next ⟨seen, few, _, ahead, left, isAhead, _⟩ many
    exact fails_stop (many.trans (few.trans (Nat.le_of_add_right_le isAhead.length_le)))

/-- A block is resolved without a breach as long as there are keys. -/
theorem safe_resolveBlock :
    (resolveBlock ⟨spec.target, options, level⟩ blk).FailsFor (onBreach Full) pass := by
  obtain ⟨seen, ahead, _⟩ := provided.lines
  obtain ⟨code, shown, _⟩ := ahead.lines
  obtain ⟨name, isName⟩ := provided.named blk pos.body
  have isFirst := shown.arranged.firstOf_eq.mpr ⟨shown.arranged.mem_order pos.body, rfl⟩
  unfold resolveBlock
  rw [fails_get_bind]
  refine fails_ok_bind isFirst (fails_ok_bind (Arena.get_eq_ok.mpr isName) ?_)
  have walks : (Walk.visitFrom ⟨spec.target, options, level⟩ 0xffffffff
      ((code blk).map Prod.fst).head? >>= fun _ => Walk.onTracking Tracking.finish).FailsFor
        (onBreach Walk.Full) ⟨pass, .empty blk, []⟩ := by
    refine fails_bind (safe_visitFrom pos provided small isFirst) fun _ visited visits => ?_
    obtain ⟨seen, standing⟩ := provided.starts pos isFirst
    obtain ⟨_, _, _, _, there, _⟩ := visitFrom_standing standing visits
    exact (onTracking_yields.mpr ⟨_, there.sound.finish, rfl⟩).fails
  exact fails_report_bind.mpr walks

end

end

theorem safe_resolveBlocks {blocks : List BlockId} (distinct : blocks.Nodup)
    (isMem : ∀ blk ∈ blocks, blk ∈ order)
    (provided : Provided options.relaxEncodings order blocks bound pass)
    (small : options.substituteConstants = true → spec.constants.length ≤ UInt32.size) :
    (resolveBlocks ⟨spec.target, options, level⟩ blocks).FailsFor (onBreach Full) pass := by
  induction blocks generalizing pass with
  | nil => exact fails_pure
  | cons blk rest ih =>
    obtain ⟨new, distinct⟩ := nodup_cons.mp distinct
    have mem' := fun one mem => isMem one (mem_cons_of_mem _ mem)
    have pos : Position order rest blk := ⟨isMem blk mem_cons_self, new, mem'⟩
    exact fails_bind (safe_resolveBlock pos provided small) fun _ _ resolves =>
      ih distinct mem' (resolveBlock_provided pos provided resolves)

end Pass

end RegisterChains

/-
This file proves that a walk ends. No line is visited twice, and there are no more visits than the
lines of a program allow when it starts. A visit starts over when a sample is narrowed, and a
narrowed sample is not narrowed again.
-/

import RegisterChains.Proofs.Allocation
import RegisterChains.Proofs.Reencoding
import RegisterChains.Proofs.Repair.Advancing

namespace RegisterChains

open List MachineSpec Step

namespace Walk

variable {spec : MachineSpec} {options : Options} {level : Option Level} {setting : Setting}
  {place : UInt32} {k : InstructionId} {run : OperandRun} {runs : List OperandRun}
  {walk after : Walk} {inst : Instruction} {pending copies : List PendingCopy} {headroom more : Nat}

/-! ### Starting over -/

/-- How often the runs of an instruction are gone through. -/
def rounds (setting : Setting) (place : UInt32) (k : InstructionId) :
    Nat → List PendingCopy → Walk → Nat
  | 0, _, _ => 0
  | headroom + 1, pending, walk =>
    match walk.program.instruction k with
    | .error _ => 1
    | .ok inst =>
      let handled := handleRuns setting place k (runsInOrder setting.target inst) pending walk
      match handled.result with
      | .ok (.narrowed pending) => 1 + rounds setting place k headroom pending handled.state
      | _ => 1

/-- Only a sample is narrowed, because of the run that it writes. -/
theorem narrowSample_of_narrowed (isFound : walk.program.instruction k = .ok inst)
    (ran : (handleRun ⟨spec.target, options, level⟩ place k run).Yields walk .narrowed after) :
    run.side = .dest ∧ ∃ narrowed, narrowSample inst = .ok (some (.narrow narrowed)) ∧
      after.program.instruction k = .ok narrowed := by
  obtain ⟨_, ops, found, _, handled, _⟩ := handleRun_yields ran
  cases isFound.symm.trans found
  cases handled with
  | relaxed relaxed becomes =>
    cases relaxed with
    | narrowed relaxes =>
      obtain ⟨⟨_, side⟩, narrows, _⟩ := relax_eq_narrow relaxes
      refine ⟨side, _, narrows, ?_⟩
      rw [becomes.program]
      have stored := Arena.get_eq_ok.mp isFound
      refine Arena.get_eq_ok.mpr ((Arena.get?_set ..).trans ?_)
      simp [stored]

theorem not_narrowed (read : ∀ run ∈ runs, run.side = .source) :
    ¬ (handleRuns ⟨spec.target, options, level⟩ place k runs pending).Yields walk
      (.narrowed copies) after := by
  intro ran
  induction runs generalizing walk pending with
  | nil =>
    obtain ⟨no, _⟩ := yields_pure.mp ran
    cases no
  | cons run rest ih =>
    obtain ⟨fix, mid, handles, later⟩ := yields_bind.mp ran
    have readRest := fun one mem => read one (mem_cons_of_mem run mem)
    cases fix with
    | holds | copiedOut => exact ih readRest later
    | narrowed =>
      obtain ⟨inst, _, reads, _⟩ := yields_bind.mp handles
      have side := (narrowSample_of_narrowed (instruction_yields.mp reads).1 handles).1
      cases (read run mem_cons_self).symm.trans side
    | replaced =>
      obtain ⟨no, _⟩ := yields_pure.mp later
      cases no

/-- If an instruction is narrowed, then because of its first run. -/
theorem narrowSample_of_handleRuns (found : walk.program.instruction k = .ok inst)
    (ran : (handleRuns ⟨spec.target, options, level⟩ place k
      (runsInOrder spec.target inst) pending).Yields walk (.narrowed copies) after) :
    ∃ narrowed, narrowSample inst = .ok (some (.narrow narrowed)) ∧
      after.program.instruction k = .ok narrowed := by
  rw [runsInOrder_eq] at ran
  have read : ∀ run ∈ (runs inst).tail, run.side = .source :=
    fun _ mem => side_of_mem_tail mem
  cases runs : runs inst with
  | nil => exact absurd (runs ▸ ran) (not_narrowed (forall_mem_nil _))
  | cons run rest =>
    rw [runs] at ran read
    obtain ⟨fix, mid, handles, later⟩ := yields_bind.mp ran
    cases fix with
    | holds | copiedOut => exact absurd later (not_narrowed read)
    | narrowed =>
      obtain ⟨_, rfl⟩ := yields_pure.mp later
      exact (narrowSample_of_narrowed found handles).2
    | replaced =>
      obtain ⟨no, _⟩ := yields_pure.mp later
      cases no

theorem rounds_le_one (found : walk.program.instruction k = .ok inst)
    (settled : narrowSample inst = .ok none) :
    rounds ⟨spec.target, options, level⟩ place k headroom pending walk ≤ 1 := by
  cases headroom with
  | zero => exact Nat.zero_le 1
  | succ headroom =>
    simp only [rounds, found]
    split
    · next ended =>
      obtain ⟨_, narrows, _⟩ := narrowSample_of_handleRuns found ⟨ended, rfl⟩
      cases settled.symm.trans narrows
    · exact Nat.le_refl 1

/-- The runs of an instruction are gone through at most twice: what is left of a narrowed sample
has both its ends in use. -/
theorem rounds_le_two : rounds ⟨spec.target, options, level⟩ place k headroom pending walk ≤ 2 := by
  cases headroom with
  | zero => exact Nat.zero_le 2
  | succ headroom =>
    unfold rounds
    split
    · exact Nat.le_succ 1
    · next inst found =>
      simp only
      split
      · next ended =>
        obtain ⟨narrowed, narrows, found'⟩ := narrowSample_of_handleRuns found ⟨ended, rfl⟩
        obtain ⟨_, _, settled⟩ := narrows_of_narrowSample narrows
        exact Nat.add_le_add_left (rounds_le_one found' settled) 1
      · exact Nat.le_succ 1

theorem settle_eq_of_settled {less : Nat} (found : walk.program.instruction k = .ok inst)
    (settled : narrowSample inst = .ok none) :
    settle ⟨spec.target, options, level⟩ place k (more + 1) pending walk =
      settle ⟨spec.target, options, level⟩ place k (less + 1) pending walk := by
  refine bind_congr_of_yields fun one walk reads => ?_
  obtain ⟨isOne, rfl⟩ := instruction_yields.mp reads
  cases found.symm.trans isOne
  refine bind_congr_of_yields fun outcome mid handles => ?_
  cases outcome with
  | narrowed copies =>
    obtain ⟨_, narrows, _⟩ := narrowSample_of_handleRuns found handles
    cases settled.symm.trans narrows
  | holding | replaced => rfl

/-- Two rounds are enough. -/
theorem settle_eq_two : settle ⟨spec.target, options, level⟩ place k (more + 2) pending walk =
      settle ⟨spec.target, options, level⟩ place k 2 pending walk := by
  refine bind_congr_of_yields fun inst walk reads => ?_
  obtain ⟨found, rfl⟩ := instruction_yields.mp reads
  refine bind_congr_of_yields fun outcome mid handles => ?_
  cases outcome with
  | narrowed copies =>
    obtain ⟨narrowed, narrows, found'⟩ := narrowSample_of_handleRuns found handles
    obtain ⟨_, _, settled⟩ := narrows_of_narrowSample narrows
    exact settle_eq_of_settled found' settled
  | holding | replaced => rfl

/-! ### Walking over a block -/

/-- The instructions that a walk visits, one after the other. -/
def handed (setting : Setting) : Nat → Option InstructionId → Walk → List InstructionId
  | _, none, _ => []
  | 0, some k, _ => [k]
  | remaining + 1, some k, walk =>
    let visited := visit setting (0xfffffffe - remaining.toUInt32) k walk
    k :: match visited.result with
      | .ok next => handed setting remaining next visited.state
      | .error _ => []

variable {region : Region spec options} {seen : List InstructionId} {bound : Nat}
  {next : Option InstructionId}

theorem Region.AheadAt.distinct (ahead : region.AheadAt bound seen walk next) :
    (next.toList ++ seen).Nodup ∧ (next.toList ++ seen).length ≤ bound := by
  cases next with
  | none =>
    obtain ⟨_, _, ⟨_, _, _, _, _, unseen, _⟩, room, _⟩ := ahead
    exact ⟨unseen.distinct, show seen.length ≤ bound by omega⟩
  | some k =>
    obtain ⟨inst, rest, left, ⟨_, front, code, _, _, unseen, _⟩, room⟩ := ahead.line
    have one := visits_pos inst
    exact ⟨nodup_cons.mpr ⟨fun mem => unseen.apart k mem (k, inst) mem_cons_self rfl,
      unseen.distinct⟩, show seen.length + 1 ≤ bound by omega⟩

/-- No instruction is visited twice, and there are no more visits than the lines allow. -/
theorem handed_ahead {remaining : Nat} (ahead : region.AheadAt bound seen walk next) :
    ∃ seen', seen'.reverse =
        seen.reverse ++ handed ⟨spec.target, options, level⟩ remaining next walk ∧
      seen'.Nodup ∧ seen'.length ≤ bound ∧ ∀ after,
        (visitFrom ⟨spec.target, options, level⟩ remaining next).Yields walk () after →
          region.AheadAt bound seen' after none := by
  obtain ⟨distinct, few⟩ := ahead.distinct
  -- A walk that fails has visited its last line too, so this is not read off where it ends.
  induction remaining generalizing seen walk next with
  | zero =>
    refine ⟨next.toList ++ seen, ?_, distinct, few, fun after ran => ?_⟩
    · cases next <;> simp [handed]
    · cases next with
      | none =>
        obtain ⟨_, rfl⟩ := yields_pure.mp ran
        exact ahead
      | some k =>
        obtain ⟨_, _, _, no⟩ := yields_bind.mp ran
        exact absurd no not_yields_breach
  | succ remaining ih =>
    cases next with
    | none =>
      refine ⟨seen, by simp [handed], distinct, few, fun after ran => ?_⟩
      obtain ⟨_, rfl⟩ := yields_pure.mp ran
      exact ahead
    | some k =>
      cases ended : (visit ⟨spec.target, options, level⟩ (0xfffffffe - remaining.toUInt32) k
          walk).result with
      | error failure =>
        refine ⟨k :: seen, by simp [handed, ended], distinct, few, fun after ran => ?_⟩
        obtain ⟨_, _, ⟨visited, _⟩, _⟩ := yields_bind.mp ran
        cases ended.symm.trans visited
      | ok next =>
        obtain ⟨inst, rest, left, isAhead, room⟩ := ahead.line
        have ahead' := (isAhead.visit room ⟨ended, rfl⟩).1
        obtain ⟨distinct', few'⟩ := ahead'.distinct
        obtain ⟨seen', isSeen, distinct, few, goesOn⟩ := ih ahead' distinct' few'
        refine ⟨seen', by simp [isSeen, handed, ended], distinct, few, fun after ran => ?_⟩
        obtain ⟨_, _, ⟨visited, rfl⟩, later⟩ := yields_bind.mp ran
        cases ended.symm.trans visited
        exact goesOn after later

end Walk

/-! ### Whole programs -/

namespace Pass

open Walk

variable {spec : MachineSpec} {options : Options} {level : Option Level} {pass : Pass}
  {order blocks : List BlockId} {holds : Instruction → Prop} {seen : List InstructionId}
  {bound : Nat}

/-- The instructions that are visited in some blocks, one after the other. -/
def handed (setting : Setting) : List BlockId → Pass → List InstructionId
  | [], _ => []
  | block :: rest, pass =>
    match pass.program.layout.firstOf block with
    | .error _ => []
    | .ok first =>
      let resolved := resolveBlock setting block pass
      Walk.handed setting 0xffffffff first ⟨pass, .empty block, []⟩ ++
        match resolved.result with
        | .ok _ => handed setting rest resolved.state
        | .error _ => []

theorem handed_distinct (lasting : Lasting spec options holds) (distinct : blocks.Nodup)
    (isMem : ∀ blk ∈ blocks, blk ∈ order) (ahead : Ahead holds order [] blocks bound seen pass) :
    (seen.reverse ++ handed ⟨spec.target, options, level⟩ blocks pass).Nodup ∧
      (seen.reverse ++ handed ⟨spec.target, options, level⟩ blocks pass).length ≤ bound := by
  induction blocks generalizing pass seen with
  | nil =>
    obtain ⟨_, _, code, _, unseen, room, _⟩ := ahead
    simp only [handed, append_nil, nodup_reverse, length_reverse]
    exact ⟨unseen.distinct, Nat.le_of_add_right_le room⟩
  | cons blk rest ih =>
    obtain ⟨new, distinct⟩ := nodup_cons.mp distinct
    have mem' := fun one mem => isMem one (mem_cons_of_mem _ mem)
    let region : Region spec options :=
      ⟨order, [], rest, blk, ⟨isMem blk mem_cons_self, new, mem'⟩, holds, lasting⟩
    obtain ⟨code, shown, _⟩ := ahead.lines
    have isFirst : pass.program.layout.firstOf blk = .ok _ := shown.arranged.firstOf_eq.mpr
      ⟨shown.arranged.mem_order region.position.body, rfl⟩
    obtain ⟨seen', isSeen, distinct', few, goesOn⟩ := handed_ahead (ahead.starts region isFirst)
    simp only [handed, isFirst]
    rw [← append_assoc, ← isSeen]
    cases ended : (resolveBlock ⟨spec.target, options, level⟩ blk pass).result with
    | error failure =>
      simp only [append_nil, nodup_reverse, length_reverse]
      exact ⟨distinct', few⟩
    | ok =>
      obtain ⟨walked, visits, _, ends⟩ := ahead.ends region isFirst ⟨ended, rfl⟩
      exact ih distinct mem' (ends seen' (goesOn walked visits)).forget

end Pass

namespace Program

open Walk

variable {program : Program} {seeded : Pass} {order : List BlockId} {code : BlockId → List Line}

/-- The walk over a program ends. No instruction is visited twice, and there are at most as many
visits as the lines of the program allow. The runs of an instruction are gone through at most
twice, and the instructions that replace another one have no runs. -/
theorem visits_end (spec : MachineSpec) (options : Options) (level : Option Level)
    (shown : program.Shows order code)
    (seeds : Seeding.seedAll.Yields (.start spec.target program) () seeded) :
    let setting : Setting := ⟨spec.target, options, level⟩
    let keys := seeded.handed setting seeded.program.blocks
    keys.Nodup ∧
      (∃ code, seeded.program.Shows seeded.program.blocks code ∧
        keys.length ≤ cost (seeded.program.blocks.flatMap code)) ∧
      (∀ place key headroom pending walk,
        rounds setting place key headroom pending walk ≤ 2 ∧
          settle setting place key (headroom + 2) pending walk =
            settle setting place key 2 pending walk) ∧
      ∀ instruction run sequence,
        spec.target.relax instruction run = .ok (some (.expand sequence)) →
          ∀ one ∈ sequence, spec.target.runs one = [] := by
  have steady := Seeding.steady_of_seedAll seeds
  obtain ⟨code, shown⟩ := steady.shown shown
  have ahead : seeded.Ahead (fun _ => True) order [] order (cost (order.flatMap code)) [] :=
    ⟨steady.sound, steady.unmarked, code, shown,
      ⟨nodup_nil, forall_mem_nil _, forall_mem_nil _⟩, (Nat.zero_add _).le, fun _ _ => trivial,
      forall_mem_nil _⟩
  obtain ⟨distinct, few⟩ :=
    Pass.handed_distinct (lasting_true spec options) shown.arranged.orderNodup
    (fun _ inside => inside) ahead
  rw [shown.blocks_eq]
  refine ⟨distinct, ⟨code, shown, few⟩, fun _ _ _ _ _ => ⟨rounds_le_two, settle_eq_two⟩,
    fun _ _ _ expands one mem => ?_⟩
  obtain ⟨dest, source, rfl⟩ := (move_of_expand expands).2 one mem
  exact runs_move dest source

/-- A wide move that is split, and a sample of which one channel is read. -/
def splitting : Program := Blueprint.assemble
  { blocks := [("entry", [
      { opcode := .vmov, dests := [.temp 0, .temp 0], sources := [.temp 1, .temp 1] },
      { opcode := .smp, dests := [.temp 2, .temp 2], sources := [.temp 3], writeMask := some 1 }])]
  } |>.leaves (.empty "main")

/-- The moves are visited in place of the wide move, and the sample starts over once. -/
theorem visits_end_splitting : let pass := Pass.start standardSetting.target splitting
    pass.handed standardSetting pass.program.blocks = [⟨0⟩, ⟨2⟩, ⟨3⟩, ⟨1⟩] ∧
      (pass.handed standardSetting pass.program.blocks).Nodup ∧
      rounds standardSetting 3 ⟨1⟩ 7 [] ⟨pass, .empty ⟨0⟩, []⟩ = 2 := by
  have built : splitting.Built fun _ => True := Blueprint.built_leaves rfl
  obtain ⟨_, _, shown, _⟩ := built.shows
  obtain ⟨distinct, _⟩ := visits_end standard .standard none shown ⟨rfl, rfl⟩
  exact ⟨by decide +kernel, distinct, by decide +kernel⟩

end Program

end RegisterChains

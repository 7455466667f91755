/-
This file proves that resolving a program leaves nothing to resolve. A program without descriptors
that was resolved can be resolved again, for the same target and with any options: no run is
repaired, and the program stays as it is. The first resolution made every run of the body hold.
The second one begins with no constraints and stays below those of the first, so that every run
fits them.
-/

import RegisterChains.Proofs.Adjacency
import RegisterChains.Proofs.Chain.Embedding
import RegisterChains.Proofs.Exhaustion

namespace RegisterChains

open ChainGraph List Step Tracking

namespace Tracking

variable {g : ChainGraph} {blk : BlockId}

/-! ### Walks that know no copies -/

theorem recordFor_of_unmarked (unmarked : Unmarked g) (cache : CopyCache) (r : Register) :
    recordFor ⟨cache, g⟩ r = none := by
  unfold recordFor
  split
  · next n found =>
    split
    · next id marked =>
      obtain ⟨node, _, read⟩ := Option.bind_eq_some_iff.mp found
      exact absurd marked (unmarked node n id read)
    · rfl
    · rfl
  · rfl

theorem noteUse_of_unmarked (unmarked : Unmarked g) (r : Register) (place : UInt32) :
    noteUse ⟨.empty blk, g⟩ r place = ⟨.empty blk, g⟩ := by
  unfold noteUse
  rw [recordFor_of_unmarked unmarked]

theorem noteDef_of_unmarked (unmarked : Unmarked g) (r : Register) :
    noteDef ⟨.empty blk, g⟩ r = ⟨.empty blk, g⟩ := by
  have none : ((CopyCache.empty blk).classOf r).foldl remove ⟨.empty blk, g⟩ =
      ⟨.empty blk, g⟩ := rfl
  unfold noteDef
  simp only
  rw [none, recordFor_of_unmarked unmarked]

end Tracking

/-- The walk over a block before its first instruction. -/
def Pass.enter (pass : Pass) (blk : BlockId) : Walk := ⟨pass, .empty blk, []⟩

namespace Walk

variable {setting : Setting} {place : UInt32} {k : InstructionId} {pass : Pass} {blk : BlockId}

section

variable (unmarked : Unmarked pass.graph)

include unmarked

theorem noteUses_enter (ops : List Register) :
    noteUses place ops (pass.enter blk) = pass.enter blk := by
  have same : ops.foldl (fun track r => track.noteUse r place)
      (pass.enter blk).tracking = (pass.enter blk).tracking := by
    induction ops with
    | nil => rfl
    | cons r rest ih =>
      rw [foldl_cons, show (pass.enter blk).tracking.noteUse r place = _ from
        noteUse_of_unmarked unmarked r place]
      exact ih
  unfold noteUses
  rw [same]
  rfl

theorem noteDefs_enter (bare : pass.hoisted = .empty) (ops : List Register) :
    ops.foldl noteDef (pass.enter blk) = pass.enter blk := by
  induction ops with
  | nil => rfl
  | cons r rest ih =>
    have same : noteDef (pass.enter blk) r = pass.enter blk := by
      unfold noteDef
      rw [show (pass.enter blk).tracking.noteDef r = _ from noteDef_of_unmarked unmarked r]
      obtain ⟨prog, g, stats, hoisted⟩ := pass
      subst bare
      rfl
    rw [foldl_cons, same]
    exact ih

/-- Where no copy is known, concluding an instruction changes nothing. -/
theorem conclude_enter (bare : pass.hoisted = .empty) {inst : Instruction}
    (found : pass.program.instruction k = .ok inst) {next : Option InstructionId}
    (isNext : pass.program.layout.nextOf k = .ok next) :
    (conclude setting place k []).Yields (pass.enter blk) next (pass.enter blk) := by
  have ends : (recordDeferred place k >>= fun _ => recordAllPending place k [] >>= fun last =>
      get >>= fun walk => liftM (walk.program.layout.nextOf last) : Step Walk _).Yields
        (pass.enter blk) next (pass.enter blk) :=
    yields_bind.mpr ⟨(), _, ⟨rfl, rfl⟩, yields_bind.mpr ⟨k, _, ⟨rfl, rfl⟩,
      yields_get_bind.mpr (yields_lift.mpr ⟨isNext, rfl⟩)⟩⟩
  unfold conclude
  refine yields_bind.mpr ⟨inst, _, instruction_yields.mpr ⟨found, rfl⟩, ?_⟩
  rw [yields_modify_bind, noteUses_enter unmarked, yields_modify_bind, noteDefs_enter unmarked bare]
  split
  · rw [yields_report_bind]
    exact yields_bind.mpr ⟨(), _, ⟨rfl, rfl⟩, ends⟩
  · exact ends

end

end Walk

/-! ### Resolving again -/

/-- What is kept while a program is resolved whose runs hold in a larger graph: the program stays,
nothing is repaired or copied, and the constraints stay below the larger graph. -/
structure Pass.Retraces (program : Program) (whole : ChainGraph) (pass : Pass) : Prop where
  program : pass.program = program
  bare : pass.hoisted = .empty
  repaired : pass.stats.repaired = 0
  unpinned : pass.graph.Unpinned
  unmarked : Unmarked pass.graph
  used : ∀ reg, pass.graph.find reg ≠ none → 1 ≤ pass.graph.limit .temp
  limits : whole.limits = pass.graph.limits
  embeds : pass.graph.Embeds whole

namespace Pass.Retraces

variable {prog : Program} {whole : ChainGraph} {pass : Pass} {blk : BlockId}
  {place : UInt32} {k : InstructionId} {inst : Instruction}

section

variable (retraces : pass.Retraces prog whole) (unpinned : whole.Unpinned)
  (found : prog.instruction k = .ok inst) {setting : Setting}

include retraces unpinned found

/-- A run that holds in the larger graph is committed. -/
theorem handleRun {run : OperandRun} (serves : whole.Serves run inst)
    (room : pass.stats.checked + 1 < Stats.limit) : ∃ after : Pass, after.Retraces prog whole ∧
      after.stats.checked = pass.stats.checked + 1 ∧
      (Walk.handleRun setting place k run).Yields (pass.enter blk) .holds (after.enter blk) := by
  obtain ⟨ops, isOperands, answers⟩ := serves
  obtain ⟨fit, g, fits, commits, embeds⟩ := retraces.embeds.commit_of_answers
    retraces.unpinned unpinned retraces.limits answers true
  have sound := retraces.unpinned.sound
  obtain ⟨evolves, isCommitted⟩ := sound.commit_yields commits
  have refines := evolves.refines sound
  have limit : g.limit .temp = pass.graph.limit .temp := evolves.grows.limit .temp
  have counted : pass.stats.countChecked =
      .ok { pass.stats with checked := pass.stats.checked + 1 } := if_pos room
  refine ⟨⟨pass.program, g, { pass.stats with checked := pass.stats.checked + 1 },
    pass.hoisted⟩, ⟨retraces.program, retraces.bare, retraces.repaired,
      retraces.unpinned.refines refines, retraces.unmarked.grows evolves.grows, ?_,
      retraces.limits.trans refines.limits.symm, embeds⟩, rfl, ?_⟩
  · intro r known
    rw [limit]
    rcases isCommitted with ⟨virt, _⟩ | ⟨_, rfl⟩
    · rcases sound.introduces_commit commits r known with old | inside
      · exact retraces.used r old
      · have short := answers.room.length_le_temp unpinned.pins inside
          (all_eq_true.mp virt r inside)
        unfold ChainGraph.limit at short ⊢
        rw [← retraces.limits]
        exact (length_pos_of_mem inside).trans_le short
    · exact retraces.used r known
  · unfold Walk.handleRun
    refine yields_bind.mpr
      ⟨inst, _, Walk.instruction_yields.mpr ⟨retraces.program ▸ found, rfl⟩, ?_⟩
    refine yields_lift_bind.mpr ⟨ops, isOperands, ?_⟩
    refine yields_get_bind.mpr (yields_lift_bind.mpr ⟨_, counted, ?_⟩)
    refine yields_modify_bind.mpr
      (yields_bind.mpr ⟨.ok fit, _, Walk.judge_yields.mpr ⟨fits.symm, rfl⟩, ?_⟩)
    exact yields_bind.mpr ⟨(), _, Walk.commit_yields.mpr ⟨g, commits, rfl⟩,
      yields_pure.mpr ⟨rfl, rfl⟩⟩

theorem handleRuns {runs : List OperandRun} (serves : ∀ run ∈ runs, whole.Serves run inst)
    (room : pass.stats.checked + runs.length < Stats.limit) :
    ∃ after : Pass, after.Retraces prog whole ∧
      after.stats.checked = pass.stats.checked + runs.length ∧
      (Walk.handleRuns setting place k runs []).Yields (pass.enter blk) (.holding [])
        (after.enter blk) := by
  induction runs generalizing pass with
  | nil => exact ⟨pass, retraces, rfl, yields_pure.mpr ⟨rfl, rfl⟩⟩
  | cons run rest ih =>
    rw [length_cons] at room
    obtain ⟨mid, retraces', counted, handles⟩ :=
      retraces.handleRun unpinned found (serves run mem_cons_self) (by omega)
    obtain ⟨after, retraces'', counted', later⟩ := ih retraces'
      (fun one inside => serves one (mem_cons_of_mem run inside)) (by omega)
    refine ⟨after, retraces'', by rw [counted', counted, length_cons]; omega, ?_⟩
    exact yields_bind.mpr ⟨.holds, _, handles, later⟩

end

variable {spec : MachineSpec} {options : Options} {level : Option Level} {order : List BlockId}
  {code : BlockId → List Line} {front rest : List Line}

section

variable (retraces : pass.Retraces prog whole) (unpinned : whole.Unpinned)
  (shown : prog.Shows order code)

include retraces unpinned shown

theorem visit (split : code blk = front ++ (k, inst) :: rest) (serves : whole.ServesAll inst)
    (room : pass.stats.checked + 2 < Stats.limit) :
    ∃ after : Pass, after.Retraces prog whole ∧ after.stats.checked ≤ pass.stats.checked + 2 ∧
      (Walk.visit ⟨spec.target, options, level⟩ place k).Yields (pass.enter blk)
        (rest.head?.map Prod.fst) (after.enter blk) := by
  have found := shown.instruction_of_split split
  have few := MachineSpec.length_runs_le inst
  obtain ⟨after, retraces', counted, handles⟩ :=
    retraces.handleRuns unpinned found serves (by omega)
  refine ⟨after, retraces', by omega, ?_⟩
  unfold Walk.visit
  rw [yields_get_bind]
  obtain ⟨headroom, isHeadroom⟩ : ∃ headroom, Stats.limit - pass.stats.checked = headroom + 1 :=
    ⟨Stats.limit - pass.stats.checked - 1, by omega⟩
  have settles : (Walk.settle ⟨spec.target, options, level⟩ place k
      (Stats.limit - (pass.enter blk).stats.checked) []).Yields (pass.enter blk) (.holding [])
        (after.enter blk) := by
    show (Walk.settle _ _ _ (Stats.limit - pass.stats.checked) []).Yields _ _ _
    rw [isHeadroom]
    refine yields_bind.mpr
      ⟨inst, _, Walk.instruction_yields.mpr ⟨retraces.program ▸ found, rfl⟩, ?_⟩
    rw [Walk.runsInOrder_eq]
    exact yields_bind.mpr ⟨.holding [], _, handles, yields_pure.mpr ⟨rfl, rfl⟩⟩
  refine yields_bind.mpr ⟨.holding [], _, settles, ?_⟩
  refine Walk.conclude_enter retraces'.unmarked retraces'.bare (retraces'.program ▸ found) ?_
  rw [retraces'.program]
  exact shown.nextOf_eq split

/-- Places in a block are counted in 32 bits, which is enough for a block that is shorter. -/
theorem visitFrom {remaining : Nat} (split : code blk = front ++ rest)
    (serves : ∀ line ∈ rest, whole.ServesAll line.2) (short : rest.length ≤ remaining)
    (room : pass.stats.checked + 2 * rest.length < Stats.limit) :
    ∃ after : Pass, after.Retraces prog whole ∧
      after.stats.checked ≤ pass.stats.checked + 2 * rest.length ∧
      (Walk.visitFrom ⟨spec.target, options, level⟩ remaining (rest.head?.map Prod.fst)).Yields
        (pass.enter blk) () (after.enter blk) := by
  induction rest generalizing pass front remaining with
  | nil =>
    refine ⟨pass, retraces, Nat.le_refl _, ?_⟩
    cases remaining <;> exact yields_pure.mpr ⟨rfl, rfl⟩
  | cons line rest ih =>
    obtain ⟨k, inst⟩ := line
    rw [length_cons] at short room
    obtain ⟨remaining, rfl⟩ : ∃ less, remaining = less + 1 := ⟨remaining - 1, by omega⟩
    obtain ⟨mid, retraces', counted, visits⟩ :=
      retraces.visit unpinned shown split (serves _ mem_cons_self) (by omega)
    have split' : code blk = (front ++ [(k, inst)]) ++ rest := by
      rw [split, append_assoc, singleton_append]
    obtain ⟨after, retraces'', counted', later⟩ := ih retraces' split'
      (fun line inside => serves line (mem_cons_of_mem _ inside))
      (Nat.le_of_succ_le_succ short) (by omega)
    refine ⟨after, retraces'', by rw [length_cons]; omega, ?_⟩
    exact yields_bind.mpr ⟨_, _, visits, later⟩

theorem resolveBlock (body : blk ∈ order) (named : ∃ name, prog.blockNames.get? blk = some name)
    (serves : ∀ line ∈ code blk, whole.ServesAll line.2) (short : (code blk).length < UInt32.size)
    (room : pass.stats.checked + 2 * (code blk).length < Stats.limit) :
    ∃ after : Pass, after.Retraces prog whole ∧
      after.stats.checked ≤ pass.stats.checked + 2 * (code blk).length ∧
      (Pass.resolveBlock ⟨spec.target, options, level⟩ blk).Yields pass () after := by
  obtain ⟨after, retraces', counted, visits⟩ :=
    retraces.visitFrom unpinned shown (nil_append _).symm serves (Nat.le_of_lt_succ short) room
  rw [← head?_map] at visits
  have walks : (Walk.visitFrom ⟨spec.target, options, level⟩ 0xffffffff
      ((code blk).map Prod.fst).head? >>= fun _ => Walk.onTracking finish).Yields
        (pass.enter blk) () (after.enter blk) :=
    yields_bind.mpr ⟨(), _, visits, ⟨rfl, rfl⟩⟩
  refine ⟨after, retraces', counted, ?_⟩
  obtain ⟨name, isName⟩ := named
  unfold Pass.resolveBlock
  rw [yields_get_bind, retraces.program]
  refine yields_lift_bind.mpr ⟨_, shown.arranged.firstOf_eq.mpr
    ⟨shown.arranged.mem_order body, rfl⟩, ?_⟩
  refine yields_lift_bind.mpr ⟨name, Arena.get_eq_ok.mpr isName, ?_⟩
  exact yields_report_bind.mpr ⟨walks.1, congrArg Walk.toPass walks.2⟩

theorem resolveBlocks {blocks : List BlockId} (body : ∀ blk ∈ blocks, blk ∈ order)
    (named : ∀ blk ∈ order, ∃ name, prog.blockNames.get? blk = some name)
    (serves : ∀ blk ∈ order, ∀ line ∈ code blk, whole.ServesAll line.2)
    (short : (blocks.flatMap code).length < UInt32.size)
    (room : pass.stats.checked + 2 * (blocks.flatMap code).length < Stats.limit) :
    ∃ after : Pass, after.Retraces prog whole ∧
      (Pass.resolveBlocks ⟨spec.target, options, level⟩ blocks).Yields pass () after := by
  induction blocks generalizing pass with
  | nil => exact ⟨pass, retraces, yields_pure.mpr ⟨rfl, rfl⟩⟩
  | cons blk rest ih =>
    rw [flatMap_cons, length_append] at short room
    have here := body blk mem_cons_self
    obtain ⟨mid, retraces', counted, resolves⟩ :=
      retraces.resolveBlock unpinned shown here (named blk here) (serves blk here) (by omega)
        (by omega)
    obtain ⟨after, retraces'', later⟩ := ih retraces'
      (fun one inside => body one (mem_cons_of_mem blk inside)) (by omega) (by omega)
    exact ⟨after, retraces'', yields_bind.mpr ⟨(), mid, resolves, later⟩⟩

end

theorem check_eq_ok (retraces : pass.Retraces prog whole) : pass.graph.check = .ok () := by
  have sound := retraces.unpinned.sound
  refine sound.check_of_nodes fun id n found => retraces.unpinned.bounded ?_
  refine retraces.used n.register ?_
  rw [(sound.registered n.register id).mpr ⟨n, found, rfl⟩]
  exact Option.some_ne_none id

end Pass.Retraces

namespace Program

variable {spec : MachineSpec} {options options' : Options} {level level' : Option Level}
  {allowed : Instruction → Prop} {program after : Program} {resolution : Resolution}

/-- A program without descriptors that was resolved is left as it is when it is resolved again,
with any options, and no run has to be repaired. Places in a block are counted in 32 bits, so
not all of the keys for instructions may be in use. -/
theorem resolve_resolved (built : program.Built allowed)
    (bare : ∀ key, program.descriptors.get? key = none)
    (yields : (resolve ⟨spec.target, options, level⟩).Yields program resolution after)
    (room : after.instructions.size < UInt32.size) :
    ∃ again, (resolve ⟨spec.target, options', level'⟩).Yields after again after ∧
      again.stats.repaired = 0 := by
  obtain ⟨seeded, walked, resolves⟩ := resolve_yields yields
  obtain rfl : seeded = .start spec.target program :=
    resolves.seeds.2.symm.trans (Pass.seedAll_yields_of_bare bare spec.target).2
  have extends' := resolves.extends
  obtain ⟨_, _, before, _⟩ := built.shows
  obtain ⟨code, shown, serves⟩ := (resolves.served before).lines
  rw [← resolves.result] at shown
  have keeps : program.Keeps after := resolves.result ▸ extends'.keeps
  have unpinned : walked.graph.Unpinned :=
    (unpinned_empty spec.limits).refines extends'.refines
  have begins : (Pass.start spec.target after).Retraces after walked.graph :=
    ⟨rfl, rfl, rfl, unpinned_empty spec.limits,
      (pinned_empty spec.limits).unmarked, fun _ known => absurd rfl known,
      extends'.refines.limits, embeds_empty spec.limits walked.graph⟩
  have short := shown.length_le
  obtain ⟨finished, retraces, walks⟩ := begins.resolveBlocks unpinned shown (fun _ inside => inside)
    (fun block inside => keeps.blockNames ▸ built.blocks_named block inside) serves
    (short.trans_lt room) (by
      show 0 + 2 * (program.blocks.flatMap code).length < UInt64.size
      have wide : 2 * UInt32.size < UInt64.size := by decide
      omega)
  rw [← shown.blocks_eq] at walks
  refine ⟨⟨.ofGraph finished.graph options'.verifyAssignments, finished.stats⟩, ?_,
    retraces.repaired⟩
  have bare' : ∀ key, after.descriptors.get? key = none := by
    rw [keeps.descriptors]
    exact bare
  have again : (Pass.resolve ⟨spec.target, options', level'⟩).Yields (.start spec.target after)
      ⟨.ofGraph finished.graph options'.verifyAssignments, finished.stats⟩ finished := by
    refine yields_bind.mpr ⟨(), _, Pass.seedAll_yields_of_bare bare' spec.target, ?_⟩
    rw [yields_get_bind]
    refine yields_bind.mpr ⟨(), finished, walks, ?_⟩
    refine yields_bind.mpr ⟨(), finished, ?_, ?_⟩
    · unfold Pass.checkGraph
      rw [yields_get_bind, retraces.check_eq_ok]
      exact yields_pure.mpr ⟨rfl, rfl⟩
    · exact yields_get_bind.mpr (yields_report_bind.mpr (yields_pure.mpr ⟨rfl, rfl⟩))
  exact ⟨again.1, (congrArg Pass.program again.2).trans retraces.program⟩

/-- Two samples whose coordinates begin with the same register. -/
def sharedCoordinates : Blueprint where
  blocks := [("entry", [
    { opcode := .smp, dests := [.temp 0, .temp 1], sources := [.temp 2, .temp 3] },
    { opcode := .smp, dests := [.temp 4, .temp 5], sources := [.temp 2, .temp 6] }])]

/-- The program with these samples. -/
def sharedProgram : Program := sharedCoordinates.assemble.leaves (.empty "main")

/-- The second sample is repaired with all means, and then there is nothing left to repair by
copies alone. -/
theorem resolve_resolved_sharedProgram :
    (sharedProgram.Built fun _ => True) ∧ (∀ key, sharedProgram.descriptors.get? key = none) ∧
      ∃ resolution after again, (resolve standardSetting).Yields sharedProgram resolution after ∧
        resolution.stats.repaired = 1 ∧ after.instructions.size < UInt32.size ∧
        (resolve ⟨MachineSpec.standard.target, .copiesOnly, none⟩).Yields after again after ∧
        again.stats.repaired = 0 := by
  have built : sharedProgram.Built fun _ => True := Blueprint.built_leaves rfl
  have bare : ∀ key, sharedProgram.descriptors.get? key = none := fun key =>
    Arena.get?_eq_none_iff.mpr (Nat.zero_le key.index)
  have repairs : (resolve standardSetting sharedProgram).result.toOption.map
      (·.stats.repaired) = some 1 := by decide +kernel
  have room : ((resolve standardSetting).leaves sharedProgram).instructions.size < UInt32.size := by
    decide +kernel
  obtain ⟨resolution, yields⟩ := yields_leaves (by
    rw [← Option.isSome_map, repairs]
    rfl)
  obtain ⟨again, yields', none⟩ := resolve_resolved built bare yields room
  refine ⟨built, bare, resolution, _, again, yields, ?_, room, yields', none⟩
  rw [yields.1] at repairs
  exact Option.some_inj.mp repairs

end Program

end RegisterChains

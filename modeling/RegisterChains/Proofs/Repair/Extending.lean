/-
This file proves that a walk only adds to the constraints. Whatever is done to an instruction,
mandatory links, parities and pins stay, the descriptors of the program stay as they are, and
the marks on nodes and the lists of copies agree with the copies that are known. So what holds once
a run is committed holds at the end.
-/

import RegisterChains.Proofs.Repair.Learning
import RegisterChains.Proofs.Repair.Walking
import RegisterChains.Resolve

namespace RegisterChains

open Program Step Tracking Walk

namespace Walk

variable {setting : Setting} {place : UInt32} {k : InstructionId} {run : OperandRun}
  {walk mid after : Walk}
  {inst ch : Instruction} {ops assigned : List Register} {pairs : List (Register × Register)}
  {next : Option InstructionId} {g : ChainGraph} {plan : Plan}

/-- The constraints are refined, and what the program has besides instructions stays. -/
structure Extends (walk after : Walk) : Prop where
  refines : walk.graph.Refines after.graph
  sound : after.tracking.Sound
  keeps : walk.program.Keeps after.program

namespace Extends

theorem refl (sound : walk.tracking.Sound) : walk.Extends walk :=
  ⟨sound.graph.refines_refl, sound, .refl _⟩

theorem trans (first : walk.Extends mid) (second : mid.Extends after) : walk.Extends after :=
  ⟨first.refines.trans second.refines, second.sound, first.keeps.trans second.keeps⟩

end Extends

/-- A change that leaves the known copies alone. -/
theorem Becomes.extends {prog : Program} (sound : walk.tracking.Sound)
    (becomes : walk.Becomes prog g after) (keeps : walk.program.Keeps prog)
    (evolves : walk.graph.Evolves g) : walk.Extends after := by
  obtain ⟨rfl, rfl, cache, _, _⟩ := becomes
  refine ⟨evolves.refines sound.graph, ?_, keeps⟩
  have grown := sound.grows evolves.sound evolves.grows
  show Sound ⟨after.cache, after.graph⟩
  rw [cache]
  exact grown

theorem Learns.extends {written : List Register} {owned : Bool}
    (learns : Learns walk written pairs owned after) : walk.Extends after :=
  ⟨learns.alike.refines, learns.sound, learns.program ▸ .refl _⟩

/-! ### Copies -/

theorem hoistCopy_extends {v holder : Register} (sound : walk.tracking.Sound)
    (ran : (hoistCopy place v holder).Yields walk () after) : walk.Extends after := by
  obtain ⟨_, _, prog, _, _, rfl, _, pushes, _, learns⟩ := hoistCopy_yields sound ran
  have told := learns.extends
  exact ⟨told.refines, told.sound, (push_yields pushes).keeps.trans
    ((keeps_exportRegister holder prog).trans told.keeps)⟩

theorem copyInFront_extends (sound : walk.tracking.Sound)
    (ran : (copyInFront place k pairs).Yields walk () after) : walk.Extends after := by
  obtain ⟨_, _, _, _, _, rfl, _, inserts, _, learns⟩ := copyInFront_yields sound ran
  have told := learns.extends
  exact ⟨told.refines, told.sound, (insertBefore_yields inserts).keeps.trans told.keeps⟩

theorem copyIn_extends {batches : List Batch} (sound : walk.tracking.Sound)
    (ran : (copyIn place k pairs batches).Yields walk () after) : walk.Extends after := by
  induction batches generalizing walk with
  | nil =>
    obtain ⟨_, rfl⟩ := yields_pure.mp ran
    exact .refl sound
  | cons batch rest ih =>
    cases batch with
    | hoist i =>
      rw [copyIn] at ran
      split at ran
      · obtain ⟨_, _, hoists, later⟩ := yields_bind.mp ran
        have grows := hoistCopy_extends sound hoists
        exact grows.trans (ih grows.sound later)
      · exact absurd ran not_yields_breach
    | inPlace start width =>
      obtain ⟨_, _, copies, later⟩ := yields_bind.mp ran
      have grows := copyInFront_extends sound copies
      exact grows.trans (ih grows.sound later)

theorem copyOut_becomes {ms : List (Register × Register × Choice)} {copies : List PendingCopy}
    (ran : (copyOut k ms).Yields walk copies after) :
    walk.Becomes after.program walk.graph after ∧ walk.program.Keeps after.program := by
  induction ms generalizing walk k copies with
  | nil =>
    obtain ⟨_, rfl⟩ := yields_pure.mp ran
    exact ⟨⟨rfl, rfl, rfl, rfl, rfl⟩, .refl _⟩
  | cons mem rest ih =>
    obtain ⟨v, holder, choice⟩ := mem
    rw [copyOut] at ran
    split at ran
    · exact ih ran
    · obtain ⟨copy, prog, inserted, counting⟩ := yields_bind_of onProgram_yields ran
      have later := yields_count_bind.mp counting
      obtain ⟨_, copiesRest, _⟩ := yields_bind_pure.mp later
      obtain ⟨⟨_, g, cache, hoisted, deferred⟩, keeps⟩ := ih copiesRest
      exact ⟨⟨rfl, g, cache, hoisted, deferred⟩, (insertAfter_yields inserted).keeps.trans keeps⟩

/-! ### One instruction -/

theorem Carried.keeps {next : UInt32}
    (carried : Carried k run walk inst ops plan assigned ch next g) :
    walk.program.Keeps (Program.setInstruction k ch { walk.program with nextTemp := next }) :=
  ⟨rfl, rfl, rfl, rfl, carried.later, Nat.le_of_eq (Arena.size_set ..).symm⟩

section

variable (sound : walk.tracking.Sound)

include sound

theorem Carried.extends {next : UInt32}
    (carried : Carried k run walk inst ops plan assigned ch next g)
    (becomes : walk.Becomes (Program.setInstruction k ch { walk.program with nextTemp := next })
      g after) :
    walk.Extends after := by
  obtain ⟨_, _, commits⟩ := carried.commits
  exact becomes.extends sound carried.keeps (sound.graph.commit_yields commits).1

theorem Handled.extends {fix : RunFix}
    (handled : Handled setting place k run walk inst ops fix after) : walk.Extends after := by
  have committed : ∀ {regs parity g}, (ChainGraph.commit regs parity true).Yields walk.graph () g →
      walk.graph.Evolves g := fun commits => (sound.graph.commit_yields commits).1
  cases handled with
  | fits _ commits becomes => exact becomes.extends sound (.refl _) (committed commits)
  | reordered reordered becomes =>
    obtain ⟨_, _, commits⟩ := reordered.commits
    exact becomes.extends sound (Program.keeps_setInstruction ..) (committed commits)
  | substituted _ becomes =>
    exact becomes.extends sound (Program.keeps_setInstruction ..) sound.graph.evolves_refl
  | relaxed relaxed becomes =>
    refine becomes.extends sound ?_ sound.graph.evolves_refl
    cases relaxed with
    | narrowed => exact Program.keeps_setInstruction ..
    | expanded _ _ replaces => exact Program.keeps_replace replaces
  | copiedIn _ _ carried becomes copies =>
    have grows := carried.extends sound becomes
    exact grows.trans (copyIn_extends grows.sound copies)
  | copiedOut _ _ carried becomes copies =>
    have grows := carried.extends sound becomes
    obtain ⟨becomes', keeps⟩ := copyOut_becomes copies
    exact grows.trans (becomes'.extends grows.sound keeps grows.sound.graph.evolves_refl)

/-- The runs of an instruction only add to the constraints. -/
def extending (setting : Setting) (place : UInt32) (k : InstructionId) (walk : Walk) :
    Invariant setting place k where
  before now _ := walk.Extends now
  during now _ _ := walk.Extends now
  gone now _ _ := walk.Extends now
  begins holds _ := holds
  step {_ _ _ _ _ _ _ fix} holds _ _ handled _ := by
    have extends' := holds.trans (handled.extends holds.sound)
    cases fix <;> exact extends'

theorem conclude_extends {pending : List PendingCopy}
    (ran : (conclude setting place k pending).Yields walk next after) : walk.Extends after := by
  obtain ⟨inst, _, reads, _⟩ := yields_bind.mp ran
  obtain ⟨found, _⟩ := instruction_yields.mp reads
  obtain ⟨_, _, learns, _⟩ := conclude_yields sound found ran
  exact learns.extends

theorem visit_extends (ran : (visit setting place k).Yields walk next after) :
    walk.Extends after := by
  obtain ⟨mid, copies, holds, concludes⟩ | ⟨mid, copies, holds, rfl⟩ :=
    (extending setting place k walk).visit (.refl sound) ran
  · exact Extends.trans holds (conclude_extends holds.sound concludes)
  · exact ⟨holds.refines, holds.sound, holds.keeps⟩

theorem visitFrom_extends {remaining : Nat}
    (ran : (visitFrom setting remaining next).Yields walk () after) : walk.Extends after := by
  refine visitFrom_keeps (fun now _ => walk.Extends now) (fun holds visits => ?_) (.refl sound) ran
  exact holds.trans (visit_extends holds.sound visits)

end

end Walk

/-! ### Whole programs -/

namespace Pass

open ChainGraph

variable {setting : Setting} {blk : BlockId} {pass mid after : Pass}

/-- A block is walked over from its first instruction, and then its copies are forgotten. -/
theorem resolveBlock_yields (ran : (resolveBlock setting blk).Yields pass () after) :
    ∃ first walked finished, pass.program.layout.firstOf blk = .ok first ∧
      (visitFrom setting 0xffffffff first).Yields ⟨pass, .empty blk, []⟩ () walked ∧
      (onTracking finish).Yields walked () finished ∧ after = finished.toPass := by
  unfold resolveBlock at ran
  rw [yields_get_bind] at ran
  simp only at ran
  obtain ⟨first, isFirst, rest⟩ := yields_lift_bind.mp ran
  obtain ⟨name, _, rest⟩ := yields_lift_bind.mp rest
  obtain ⟨ended, rfl⟩ := rest
  have runs : Step.Yields (visitFrom setting 0xffffffff first >>= fun _ =>
      onTracking finish) ⟨pass, .empty blk, []⟩ () _ := ⟨ended, rfl⟩
  obtain ⟨_, walked, visits, finishes⟩ := yields_bind.mp runs
  exact ⟨first, walked, _, isFirst, visits, finishes, rfl⟩

/-- The constraints are refined and carry no marks, and what the program has besides
instructions stays. -/
structure Extends (pass after : Pass) : Prop where
  refines : pass.graph.Refines after.graph
  unmarked : Unmarked after.graph
  keeps : pass.program.Keeps after.program

theorem Extends.trans (first : pass.Extends mid) (second : mid.Extends after) :
    pass.Extends after :=
  ⟨first.refines.trans second.refines, second.unmarked, first.keeps.trans second.keeps⟩

/-- At the end of a block no copy is known. -/
theorem finish_extends {walk finished : Walk} (sound : walk.tracking.Sound)
    (ran : (onTracking finish).Yields walk () finished) :
    walk.graph.Alike finished.graph ∧ Unmarked finished.graph ∧
      finished.program = walk.program ∧ finished.hoisted = walk.hoisted := by
  obtain ⟨track, finishes, rfl⟩ := onTracking_yields.mp ran
  obtain rfl := sound.eq_removeAll finishes
  obtain ⟨cleared, _, unmarked⟩ := sound.removeAll
  exact ⟨cleared.alike, unmarked, rfl, rfl⟩

theorem resolveBlock_extends (sound : pass.graph.Sound) (unmarked : Unmarked pass.graph)
    (ran : (resolveBlock setting blk).Yields pass () after) : pass.Extends after := by
  obtain ⟨first, walked, finished, _, visits, finishes, rfl⟩ := resolveBlock_yields ran
  have begins : (⟨pass, .empty blk, []⟩ : Walk).tracking.Sound := sound_empty sound unmarked blk
  have visited := visitFrom_extends begins visits
  obtain ⟨alike, clean, prog, _⟩ := finish_extends visited.sound finishes
  refine ⟨visited.refines.trans alike.refines, clean, ?_⟩
  rw [prog]
  exact visited.keeps

theorem resolveBlocks_extends {blocks : List BlockId} (sound : pass.graph.Sound)
    (unmarked : Unmarked pass.graph) (ran : (resolveBlocks setting blocks).Yields pass () after) :
    pass.Extends after := by
  induction blocks generalizing pass with
  | nil =>
    obtain ⟨_, rfl⟩ := yields_pure.mp ran
    exact ⟨sound.refines_refl, unmarked, .refl _⟩
  | cons blk rest ih =>
    obtain ⟨_, _, resolves, later⟩ := yields_bind.mp ran
    have grows := resolveBlock_extends sound unmarked resolves
    exact grows.trans (ih grows.refines.sound grows.unmarked later)

end Pass

namespace Program

variable {setting : Setting} {prog after : Program} {resolution : Resolution}

/-- A resolution that ends: descriptors are seeded, blocks are walked over, and the constraints
pass their check. -/
structure Resolves (setting : Setting) (prog : Program) (seeded walked : Pass)
    (resolution : Resolution) (after : Program) : Prop where
  seeds : Seeding.seedAll.Yields (.start setting.target prog) () seeded
  walks : (Pass.resolveBlocks setting seeded.program.blocks).Yields seeded () walked
  checked : walked.graph.check = .ok ()
  numbering : resolution.numbering = .ofGraph walked.graph setting.options.verifyAssignments
  result : after = walked.program

theorem resolve_yields (ran : (resolve setting).Yields prog resolution after) :
    ∃ seeded walked, Resolves setting prog seeded walked resolution after := by
  obtain ⟨ended, rfl⟩ := ran
  obtain ⟨_, seeded, seeds, rest⟩ := yields_bind.mp
    (⟨ended, rfl⟩ : (Pass.resolve setting).Yields (.start setting.target prog) resolution _)
  rw [yields_get_bind] at rest
  obtain ⟨_, walked, walks, rest⟩ := yields_bind.mp rest
  obtain ⟨_, checked, checks, rest⟩ := yields_bind.mp rest
  rw [yields_get_bind, yields_report_bind] at rest
  obtain ⟨isResolution, isAfter⟩ := yields_pure.mp rest
  unfold Pass.checkGraph at checks
  rw [yields_get_bind] at checks
  split at checks
  · exact absurd checks not_yields_contradict
  · next passes =>
    obtain ⟨_, rfl⟩ := yields_pure.mp checks
    refine ⟨seeded, checked, seeds, walks, ?_, by rw [isResolution], ?_⟩
    · cases verdict : checked.graph.check with
      | error cause => exact absurd verdict (passes cause)
      | ok => rfl
    · exact congrArg Pass.program isAfter

theorem Resolves.extends {seeded walked : Pass}
    (resolves : Resolves setting prog seeded walked resolution after) : seeded.Extends walked := by
  have steady := Seeding.steady_of_seedAll resolves.seeds
  exact Pass.resolveBlocks_extends steady.sound steady.unmarked resolves.walks

end Program

end RegisterChains

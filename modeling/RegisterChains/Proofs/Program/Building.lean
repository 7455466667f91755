/-
This file is about programs that were built from nothing: blocks are added, instructions are
appended, descriptors are declared. Whatever holds of the empty program and is kept by each of
these holds of every program that a description of its parts is built into.
-/

import RegisterChains.Blueprint
import RegisterChains.Proofs.Program.Operations

namespace RegisterChains

open Program Step

variable {blk : BlockId}

namespace Program

variable {prog after : Program} {name : String}

/-! ### Adding blocks -/

theorem nameBlock_yields : (nameBlock name).Yields prog blk after ↔
      ∃ names, prog.blockNames.insert name = .ok (blk, names) ∧
        after = { prog with blockNames := names } := by
  unfold nameBlock
  rw [yields_get_bind, yields_lift_bind]
  simp only [yields_modify_bind, yields_pure, Prod.exists]
  constructor
  · rintro ⟨_, names, inserted, rfl, rfl⟩
    exact ⟨names, inserted, rfl⟩
  · rintro ⟨names, inserted, rfl⟩
    exact ⟨blk, names, inserted, rfl, rfl⟩

theorem addBlock_yields (ran : (addBlock name).Yields prog blk after) :
    ∃ names layout, prog.blockNames.insert name = .ok (blk, names) ∧
      prog.layout.appendBlock blk = .ok layout ∧
        after = { prog with blockNames := names, layout := layout } := by
  obtain ⟨_, names, inserted, ran⟩ := yields_bind_of nameBlock_yields ran
  obtain ⟨_, layout, ordered, ended⟩ := yields_bind_of changeLayout_yields ran
  obtain ⟨rfl, rfl⟩ := yields_pure.mp ended
  exact ⟨names, layout, inserted, ordered, rfl⟩

theorem addPreamble_yields (ran : addPreamble.Yields prog blk after) :
    (prog.preamble = some blk ∧ after = prog) ∨ (prog.preamble = none ∧ ∃ names layout,
        prog.blockNames.insert "preamble" = .ok (blk, names) ∧
        prog.layout.setAside blk = .ok layout ∧ after = { prog with
            blockNames := names
            layout := layout
            preamble := some blk }) := by
  unfold addPreamble at ran
  rw [yields_get_bind] at ran
  split at ran
  · next present =>
    obtain ⟨rfl, rfl⟩ := yields_pure.mp ran
    exact .inl ⟨present, rfl⟩
  · next absent =>
    obtain ⟨_, names, inserted, ran⟩ := yields_bind_of nameBlock_yields ran
    obtain ⟨_, layout, ordered, ran⟩ := yields_bind_of changeLayout_yields ran
    rw [yields_modify_bind, yields_pure] at ran
    obtain ⟨rfl, rfl⟩ := ran
    exact .inr ⟨absent, names, layout, inserted, ordered, rfl⟩

/-! ### Programs built from nothing -/

/-- The programs that can be built from nothing, with instructions of some kind. -/
inductive Built (allowed : Instruction → Prop) : Program → Prop where
  | empty (name : String) : Built allowed (.empty name)
  | addBlock {prog after name block} : Built allowed prog →
    (addBlock name).Yields prog block after → Built allowed after
  | addPreamble {prog after block} : Built allowed prog →
    addPreamble.Yields prog block after → Built allowed after
  | append {prog after block inst key} : Built allowed prog → allowed inst →
    (append block inst).Yields prog key after → Built allowed after
  | declare {prog after desc key} : Built allowed prog →
    (declare desc).Yields prog key after → Built allowed after
  | exportRegister {prog : Program} (reg : Register) : Built allowed prog →
    Built allowed (prog.exportRegister reg)
  | markUniform {prog : Program} (reg : Register) : Built allowed prog →
    Built allowed (prog.markUniform reg)
  | limit {prog : Program} (tempLimit : UInt32) (instructionLimit : Nat) :
    Built allowed prog →
    Built allowed { prog with tempLimit := tempLimit, instructionLimit := instructionLimit }

theorem Built.closed {allowed : Instruction → Prop} (built : Built allowed prog) : prog.Closed := by
  induction built with
  | empty name => exact closed_empty name
  | addBlock _ ran closed =>
    obtain ⟨_, _, _, _, rfl⟩ := addBlock_yields ran
    exact closed.mono rfl rfl (UInt32.le_refl _)
  | addPreamble _ ran closed =>
    obtain ⟨_, rfl⟩ | ⟨_, _, _, _, _, rfl⟩ := addPreamble_yields ran
    · exact closed
    · exact closed.mono rfl rfl (UInt32.le_refl _)
  | append _ _ ran closed => exact closed.append ran
  | declare _ ran closed => exact closed.declare ran
  | exportRegister r _ closed =>
    unfold Program.exportRegister
    split
    · exact closed
    · exact closed.mono rfl rfl (UInt32.le_refl _)
  | markUniform r _ closed =>
    unfold Program.markUniform
    split
    · exact closed
    · exact closed.mono rfl rfl (UInt32.le_refl _)
  | limit _ _ _ closed => exact closed.mono rfl rfl (UInt32.le_refl _)

end Program

namespace Blueprint

open Program

variable {prog after : Program} {allowed : Instruction → Prop} {blueprint : Blueprint}

/-- Every instruction that a draft is made into is allowed. -/
def Allows (allowed : Instruction → Prop) (drafts : List Draft) : Prop :=
  ∀ draft ∈ drafts, ∀ inst, draft.make = .ok inst → allowed inst

section

variable (built : Built allowed prog)

include built

theorem built_appendAll {drafts : List Draft} (allows : Allows allowed drafts)
    (ran : (appendAll blk drafts).Yields prog () after) : Built allowed after := by
  induction drafts generalizing prog with
  | nil =>
    obtain ⟨_, rfl⟩ := yields_pure.mp ran
    exact built
  | cons draft rest ih =>
    obtain ⟨inst, made, ran⟩ := yields_lift_bind.mp ran
    obtain ⟨k, mid, appends, ran⟩ := yields_bind.mp ran
    have here := allows draft List.mem_cons_self inst made
    exact ih (.append built here appends)
      (fun one mem => allows one (List.mem_cons_of_mem _ mem)) ran

theorem built_addBlocks {blocks : List (String × List Draft)}
    (allows : ∀ blk ∈ blocks, Allows allowed blk.2)
    (ran : (addBlocks blocks).Yields prog () after) : Built allowed after := by
  induction blocks generalizing prog with
  | nil =>
    obtain ⟨_, rfl⟩ := yields_pure.mp ran
    exact built
  | cons blk rest ih =>
    obtain ⟨name, drafts⟩ := blk
    obtain ⟨k, _, adds, ran⟩ := yields_bind.mp ran
    obtain ⟨_, mid, appends, ran⟩ := yields_bind.mp ran
    have here := built_appendAll (.addBlock built adds) (allows (name, drafts) List.mem_cons_self)
      appends
    exact ih here (fun one mem => allows one (List.mem_cons_of_mem _ mem)) ran

theorem built_declareAll {descs : List Descriptor} (ran : (declareAll descs).Yields prog () after) :
    Built allowed after := by
  induction descs generalizing prog with
  | nil =>
    obtain ⟨_, rfl⟩ := yields_pure.mp ran
    exact built
  | cons desc rest ih =>
    obtain ⟨k, mid, declares, ran⟩ := yields_bind.mp ran
    exact ih (.declare built declares) ran

theorem built_exports (regs : List Register) : Built allowed (regs.foldl (fun prog r =>
      prog.exportRegister r) prog) := by
  induction regs generalizing prog with
  | nil => exact built
  | cons r rest ih => exact ih (.exportRegister _ built)

theorem built_finish (blueprint : Blueprint) : Built allowed (blueprint.finish prog) := by
  have marked : Built allowed (blueprint.uniforms.foldl (fun prog r =>
      prog.markUniform r) prog) := by
    generalize blueprint.uniforms = regs
    induction regs generalizing prog with
    | nil => exact built
    | cons r rest ih => exact ih (.markUniform _ built)
  exact .limit _ _ marked

/-- The last parts of a program are its exports, its descriptors and its limits. -/
theorem built_ending (ran : (do
      modify fun prog => blueprint.exports.foldl (fun prog r =>
        prog.exportRegister r) prog
      declareAll blueprint.descriptors
      modify blueprint.finish : Step Program Unit).Yields prog () after) :
    Built allowed after := by
  rw [yields_modify_bind] at ran
  obtain ⟨_, declared, declares, finishes⟩ := yields_bind.mp ran
  obtain rfl := yields_modify.mp finishes
  exact built_finish (built_declareAll (built_exports built _) declares) blueprint

end

section

variable (built : Built allowed prog) (blocks : ∀ blk ∈ blueprint.blocks, Allows allowed blk.2)
  (preamble : ∀ drafts ∈ blueprint.preamble, Allows allowed drafts)

include built blocks preamble

/-- The parts of a program from its blocks on. -/
theorem built_blocks (ran : (do
      addBlocks blueprint.blocks
      if let some drafts := blueprint.preamble then
        appendAll (← addPreamble) drafts
      modify fun prog => blueprint.exports.foldl (fun prog r =>
        prog.exportRegister r) prog
      declareAll blueprint.descriptors
      modify blueprint.finish : Step Program Unit).Yields prog () after) :
    Built allowed after := by
  obtain ⟨_, filled, adds, ran⟩ := yields_bind.mp ran
  have built := built_addBlocks built blocks adds
  cases described : blueprint.preamble with
  | none =>
    simp only [described] at ran
    exact built_ending built ran
  | some drafts =>
    simp only [described] at ran
    obtain ⟨blk, _, aside, ran⟩ := yields_bind.mp ran
    obtain ⟨_, _, appends, ran⟩ := yields_bind.mp ran
    exact built_ending
      (built_appendAll (.addPreamble built aside) (preamble drafts described) appends) ran

theorem built_assemble (ran : blueprint.assemble.Yields prog () after) : Built allowed after := by
  change Step.Yields (if blueprint.preambleFirst = true then _ else _) prog () after at ran
  by_cases isFirst : blueprint.preambleFirst = true
  · rw [if_pos isFirst] at ran
    obtain ⟨_, _, aside, ran⟩ := yields_bind.mp ran
    exact built_blocks (.addPreamble built aside) blocks preamble ran
  · rw [if_neg isFirst] at ran
    exact built_blocks built blocks preamble ran

end

/-- What is left once a description has been assembled can be built from nothing. -/
theorem built_leaves {name : String}
    (ended : (blueprint.assemble.run (.empty name)).result = .ok ()) :
    (blueprint.assemble.leaves (.empty name)).Built fun _ => True :=
  built_assemble (.empty name) (fun _ _ _ _ _ _ => trivial) (fun _ _ _ _ _ _ => trivial)
    ⟨ended, rfl⟩

end Blueprint

end RegisterChains

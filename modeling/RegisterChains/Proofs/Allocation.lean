/-
This file says which of the chains that a resolution hands over can be numbered. A chain may
hold members that are pinned to numbers by different descriptors, and nothing makes sure that
such numbers are as far apart as the members are.
-/

import RegisterChains.Proofs.Repair.Extending

namespace RegisterChains

namespace ChainGraph

variable {g : ChainGraph} {head : NodeId}

/-- The bank of a chain is that of its first pinned member. -/
theorem Shaped.bankOf_head (shaped : g.Shaped) (isHead : head ∈ g.heads) :
    g.bankOf head = (g.pinnedBankOf (g.chain head)).getD .temp := by
  obtain ⟨rest, isChain, run⟩ := shaped.run_of_head isHead
  obtain ⟨n, found, _⟩ := (shaped.heads head).mp isHead
  have whole : IsRun (g.Leads false) ([] ++ head :: rest) := run
  obtain ⟨_, _, segment⟩ := shaped.segment_eq found whole
  unfold bankOf
  rw [segment, isChain]
  rfl

/-- Chains that pass their check fit their banks. -/
theorem Shaped.length_of_check (shaped : g.Shaped) (checked : g.check = .ok ())
    (isHead : head ∈ g.heads) : (g.chain head).length ≤ g.limit (g.bankOf head) := by
  obtain ⟨_, _, chains⟩ := except_bind_eq_ok.mp checked
  have passes := except_forM_eq_ok.mp chains head isHead
  unfold checkChain at passes
  obtain ⟨_, passes⟩ := except_unless_throw_eq_ok.mp passes
  rw [shaped.bankOf_head isHead]
  by_contra long
  simp only at passes
  rw [if_pos (Nat.lt_of_not_le long)] at passes
  cases passes

end ChainGraph

namespace Program

variable {setting : Setting} {allowed : Instruction → Prop} {program after : Program}
  {resolution : Resolution} {head : NodeId}

/-- Some base is accepted for a chain of a resolution exactly if the numbers that its members
are pinned to are as far apart as the members are, and leave room for all of them. -/
theorem exists_base_iff (built : program.Built allowed)
    (yields : (resolve setting).Yields program resolution after)
    (isHead : head ∈ resolution.numbering.graph.heads) :
    (∃ base, resolution.numbering.check head base = .ok ()) ↔
      resolution.numbering.graph.Numberable (resolution.numbering.graph.chain head) := by
  obtain ⟨seeded, walked, resolves⟩ := resolve_yields yields
  have consistent := (Seeding.seedAll_yields built.closed resolves.seeds).1
  have refines := resolves.extends.refines
  have graph : resolution.numbering.graph = walked.graph := by rw [resolves.numbering]; rfl
  have sound : resolution.numbering.graph.Sound := graph ▸ refines.sound
  have fit : resolution.numbering.graph.NumbersFit := graph ▸ consistent.numbers.refines refines
  have short := sound.length_of_check (graph ▸ resolves.checked) isHead
  simp only [sound.check_eq_ok_iff isHead, and_iff_right short]
  exact sound.exists_numbered_iff fit isHead

/-! ### Pins at both ends of a chain -/

/-- Two packs that share a register, with the other two pinned to given numbers. -/
def pinnedEnds (first last : UInt32) : Blueprint where
  blocks := [("entry", [
    { opcode := .pack, dests := [.temp 1, .temp 2], sources := [.temp 11, .temp 12] },
    { opcode := .pack, dests := [.temp 2, .temp 3], sources := [.temp 11, .temp 12] }])]
  descriptors := [.input .primary (some first) [.temp 1], .input .primary (some last) [.temp 3]]

/-- The program with these parts. -/
def pinnedProgram (first last : UInt32) : Program :=
  (pinnedEnds first last).assemble.leaves (.empty "main")

/-- Every repair on the standard target. -/
def standardSetting : Setting := ⟨MachineSpec.standard.target, .standard, none⟩

theorem built_pinnedProgram {first last : UInt32}
    (ran : (pinnedEnds first last).assemble.Yields (.empty "main") () (pinnedProgram first last)) :
    (pinnedProgram first last).Built fun _ => True :=
  Blueprint.built_leaves ran.1

/-- Pins two numbers apart leave a base for the chain of the three registers. -/
theorem numberable_pinned_ends :
    ∃ resolution after, (resolve standardSetting).Yields (pinnedProgram 5 7) resolution after ∧
      ∃ head ∈ resolution.numbering.graph.heads,
        resolution.numbering.graph.Numberable (resolution.numbering.graph.chain head) := by
  obtain ⟨resolution, after, yields, heads, checked⟩ : ∃ resolution after,
      (resolve standardSetting).Yields (pinnedProgram 5 7) resolution after ∧
        resolution.numbering.graph.heads = [⟨0⟩] ∧
        resolution.numbering.check ⟨0⟩ 5 = .ok () := ⟨_, _, ⟨rfl, rfl⟩, rfl, rfl⟩
  have isHead : ⟨0⟩ ∈ resolution.numbering.graph.heads := heads ▸ List.mem_cons_self
  exact ⟨resolution, after, yields, ⟨0⟩, isHead,
    (exists_base_iff (built_pinnedProgram ⟨rfl, rfl⟩) yields isHead).mp ⟨5, checked⟩⟩

/-- Pins four numbers apart leave no base for the chain of the three registers. -/
theorem no_base_for_pinned_ends : (pinnedProgram 5 9).Built (fun _ => True) ∧
      ∃ resolution after, (resolve standardSetting).Yields (pinnedProgram 5 9) resolution after ∧
        ∃ head ∈ resolution.numbering.graph.heads,
          ∀ base, resolution.numbering.check head base ≠ .ok () := by
  refine ⟨built_pinnedProgram ⟨rfl, rfl⟩, _, _, ⟨rfl, rfl⟩, ⟨0⟩, List.mem_cons_self,
    fun base checked => ?_⟩
  obtain ⟨_, _, passes⟩ := Numbering.check_eq_ok.mp checked
  have first := (Numbering.checkMember_eq_ok.mp (passes 0 _ _ rfl rfl)).2.2 5 rfl
  have last := (Numbering.checkMember_eq_ok.mp (passes 2 _ _ rfl rfl)).2.2 9 rfl
  have small : base.toNat + 2 < UInt32.size :=
    (Numbering.checkMember_eq_ok.mp (passes 2 _ _ rfl rfl)).1
  have atFirst : 5 = base.toNat := by
    simpa using (congrArg UInt32.toNat first).trans (ChainGraph.toNat_toUInt32 (by omega))
  have atLast : 9 = base.toNat + 2 :=
    (congrArg UInt32.toNat last).trans (ChainGraph.toNat_toUInt32 small)
  omega

end Program

end RegisterChains

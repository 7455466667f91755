/-
This file shows that the check at the end of a resolution never fails. Constraints only grow
while blocks are walked over, and what they grow from is sound: seeding links pinned registers
only, so each chain is in one bank and fits it. That needs every register of the program to be
in use beforehand. A register that is not may be handed out a second time, for a member of
another descriptor, and then a link is found between pins that cannot be adjacent.
-/

import RegisterChains.Proofs.Allocation

namespace RegisterChains

open Program Seeding Step

namespace ChainGraph

variable {g : ChainGraph}

/-! ### Graphs that pass -/

section

variable (sound : g.Sound) {head id : NodeId} {n : Node}

include sound

theorem Sound.checkNext_eq_ok (bounded : g.Bounded) (found : g.node? id = some n) :
    g.checkNext id n = .ok () := by
  unfold checkNext
  cases onward : n.next with
  | none => rfl
  | some next =>
    obtain ⟨successor, reached, back⟩ := sound.forward id n next found onward
    obtain ⟨flipped, _⟩ := sound.steps id n next successor found onward reached
    have follows : g.Follows false n.register successor.register :=
      ⟨id, next, sound.find_of_node? found, sound.find_of_node? reached, leads_next found onward⟩
    have adjacent := bounded.adjacent _ _ follows
    rw [pinAt_of_find (sound.find_of_node? found) found,
      pinAt_of_find (sound.find_of_node? reached) reached] at adjacent
    simp only [reached, back, flipped, ne_eq, not_true_eq_false, if_false, decide_false,
      Bool.and_false, Bool.false_eq_true]
    cases pin : n.pin with
    | none => rfl
    | some first =>
      cases pin' : successor.pin with
      | none => rfl
      | some second =>
        simp only [adjacent first second pin pin', Bool.not_true, Bool.false_eq_true, if_false]
        rfl

theorem Sound.checkPrev_eq_ok (found : g.node? id = some n) : g.checkPrev id n = .ok () := by
  unfold checkPrev
  cases back : n.prev with
  | none => rfl
  | some prev =>
    obtain ⟨predecessor, reached, onward⟩ := sound.backward id n prev found back
    simp only [reached, Option.bind_some, onward, ne_eq, not_true_eq_false, if_false]
    rfl

theorem Sound.checkNode_eq_ok (bounded : g.Bounded) (found : g.node? id = some n) :
    g.checkNode id n = .ok () := by
  have isHead : n.prev.isNone = g.heads.contains id := by
    rw [Bool.eq_iff_iff, List.contains_iff_mem, sound.heads]
    simp [found]
  unfold checkNode
  rw [sound.find_of_node? found, sound.checkNext_eq_ok bounded found,
    sound.checkPrev_eq_ok found, isHead]
  simp only [ne_eq, not_true_eq_false, if_false]
  rfl

/-- The registers of a chain are a run, and its bank is theirs. -/
theorem Sound.registers_of_head (isHead : head ∈ g.heads) :
    IsRun (g.Follows false) ((g.chain head).map g.registerOf) ∧
      g.bankAmong ((g.chain head).map g.registerOf) =
        g.pinnedBankOf (g.chain head) ∧ (g.chain head).length ≤ g.size := by
  obtain ⟨rest, isChain, run⟩ := sound.run_of_head isHead
  obtain ⟨n, found, _⟩ := (sound.heads head).mp isHead
  have live : ∀ id ∈ head :: rest, ∃ n, g.node? id = some n := fun id mem =>
    sound.live_of_mem run found List.mem_cons_self mem
  rw [isChain]
  exact ⟨sound.run_registers run live, sound.bankAmong_registerOf live,
    sound.length_le run found List.mem_cons_self⟩

theorem Sound.checkChain_eq_ok (bounded : g.Bounded) (isHead : head ∈ g.heads) :
    g.checkChain head = .ok () := by
  obtain ⟨run, bank, short⟩ := sound.registers_of_head isHead
  have room := bounded.room _ run
  rw [bank, List.length_map] at room
  unfold checkChain
  simp only [Nat.not_lt_of_le short, Nat.not_lt_of_le room, if_false]
  rfl

/-- A graph whose chains fit their banks passes its check, and so does one without nodes. -/
theorem Sound.check_of_nodes (bounded : ∀ id n, g.node? id = some n → g.Bounded) :
    g.check = .ok () := by
  refine except_bind_eq_ok.mpr ⟨(), except_forM_eq_ok.mpr ?_, except_forM_eq_ok.mpr ?_⟩
  · rintro ⟨id, n⟩ listed
    have found := Pool.mem_toList.mp listed
    exact sound.checkNode_eq_ok (bounded id n found) found
  · intro head isHead
    obtain ⟨n, found, _⟩ := (sound.heads head).mp isHead
    exact sound.checkChain_eq_ok (bounded head n found) isHead

theorem Sound.check_eq_ok (bounded : g.Bounded) :
    g.check = .ok () := sound.check_of_nodes fun _ _ _ => bounded

/-- All pins of a chain are in one bank. -/
theorem Sound.exists_bank (bounded : g.Bounded) (isHead : head ∈ g.heads) :
    ∃ bank, ∀ id ∈ g.chain head, ∀ pin, g.pinOf id = some pin → pin.bank = bank := by
  obtain ⟨run, bank, _⟩ := sound.registers_of_head isHead
  refine ⟨(g.pinnedBankOf (g.chain head)).getD .temp, fun id mem pin isPin => ?_⟩
  have live : ∃ n, g.node? id = some n := by
    obtain ⟨n, found, _⟩ := Option.bind_eq_some_iff.mp isPin
    exact ⟨n, found⟩
  have uniform := bounded.uniform _ run _ (List.mem_map_of_mem mem) pin
    ((sound.pinAt_registerOf live).trans isPin)
  rw [← bank, uniform, Option.getD_some]

end

end ChainGraph

/-! ### Resolutions -/

namespace Pass

variable {setting : Setting} {prog : Program} {seeded walked : Pass}

/-- A resolution that gets past seeding and all blocks ends: the constraints pass their check,
and all pins of a chain are in one bank. -/
theorem passes_check (closed : prog.Closed) (roomy : ∀ bank, 1 ≤ setting.target.limits.get bank)
    (seeds : seedAll.Yields (.start setting.target prog) () seeded)
    (walks : (resolveBlocks setting seeded.program.blocks).Yields seeded () walked) :
    walked.graph.check = .ok () ∧
      (∀ head ∈ walked.graph.heads, ∃ bank, ∀ id ∈ walked.graph.chain head, ∀ pin,
        walked.graph.pinOf id = some pin → pin.bank = bank) ∧
      ∃ resolution, (resolve setting).Yields (.start setting.target prog) resolution walked := by
  obtain ⟨consistent, _, _, limits, _⟩ := seedAll_yields closed seeds
  have pinned := consistent.pinned
  have bounded : seeded.graph.Bounded := pinned.bounded fun bank => by
    rw [ChainGraph.limit, limits]
    exact roomy bank
  have refines := (resolveBlocks_extends pinned.sound pinned.unmarked walks).refines
  have sound := refines.sound
  have checked := sound.check_eq_ok (refines.bounded bounded)
  refine ⟨checked, fun head isHead => sound.exists_bank (refines.bounded bounded) isHead,
    ⟨.ofGraph walked.graph setting.options.verifyAssignments, walked.stats⟩, ?_⟩
  refine yields_bind.mpr ⟨(), seeded, seeds, ?_⟩
  rw [yields_get_bind]
  refine yields_bind.mpr ⟨(), walked, walks, yields_bind.mpr ⟨(), walked, ?_, ?_⟩⟩
  · unfold checkGraph
    rw [yields_get_bind, checked]
    exact yields_pure.mpr ⟨rfl, rfl⟩
  · rw [yields_get_bind, yields_report_bind]
    exact yields_pure.mpr ⟨rfl, rfl⟩

/-- Two packs between pinned registers get past seeding and their block. -/
theorem passes_check_pinned_ends : ∃ seeded walked, seedAll.Yields
        (.start standardSetting.target (pinnedProgram 5 7)) () seeded ∧
      (resolveBlocks standardSetting seeded.program.blocks).Yields seeded () walked ∧
      walked.graph.check = .ok () := by
  obtain ⟨seeded, walked, seeds, walks⟩ : ∃ seeded walked,
      seedAll.Yields
        (.start standardSetting.target (pinnedProgram 5 7)) () seeded ∧
      (resolveBlocks standardSetting seeded.program.blocks).Yields seeded () walked :=
    ⟨_, _, ⟨rfl, rfl⟩, ⟨rfl, rfl⟩⟩
  have closed : (pinnedProgram 5 7).Closed :=
    (built_pinnedProgram ⟨rfl, rfl⟩).closed
  have roomy : ∀ bank, 1 ≤ standardSetting.target.limits.get bank := by
    intro bank
    cases bank <;> decide
  exact ⟨seeded, walked, seeds, walks, (passes_check closed roomy seeds walks).1⟩

/-! ### A register that is not in use -/

/-- A copy into a register that is pushed without being noted, and outputs that are contested
by an input. The copy becomes the last member of the first output, and the second one gets the
same register anew. -/
def contestedOutputs : Step Program Unit := do
  let entry ← addBlock "entry"
  let _ ← push entry (.move (.temp 8) (.temp 1))
  let _ ← declare (.input .primary none [.temp 1, .temp 2])
  let _ ← declare (.output .output none [.temp 7, .temp 1])
  let _ ← declare (.output .output none [.temp 2])

/-- Where a register is not noted, the check may fail. -/
theorem check_fails_on_unnoted_register :
    (∀ bank, 1 ≤ standardSetting.target.limits.get bank) ∧ ∃ seeded walked,
        seedAll.Yields (.start standardSetting.target
          (contestedOutputs.leaves (.empty "main"))) () seeded ∧
        (resolveBlocks standardSetting seeded.program.blocks).Yields seeded () walked ∧
        walked.graph.check = .error (.pinsApart (.temp 7) (.temp 8)) := by
  refine ⟨fun bank => by cases bank <;> decide, _, _, ⟨rfl, rfl⟩, ⟨rfl, rfl⟩, rfl⟩

end Pass

end RegisterChains

/-
This file proves what a resolution is for: once every chain that it hands over has a base that is
accepted, the runs of all instructions in the body have ascending numbers, and the members of
descriptors have the numbers that the descriptors give them.
-/

import RegisterChains.Proofs.Allocation
import RegisterChains.Proofs.Assignment
import RegisterChains.Proofs.Repair.Advancing

namespace RegisterChains

namespace Numbering

/-- Operands as a run needs them: hardware registers of one kind whose numbers ascend by one from
an allowed number, or virtual registers that were numbered so. A single virtual register that
needs no parity may have any number or none. -/
def Adjacent (numbering : Numbering) (ops : List Register) (parity : Parity) : Prop :=
  ChainGraph.Numeric ops parity ∨ (ops.all (·.isVirtual) = true ∧
      (2 ≤ ops.length ∨ parity ≠ .any → numbering.Ascends ops parity))

/-- Numbers that do what a target asks for: the operands of every run in the body are adjacent. -/
def Aligns (numbering : Numbering) (target : Target) (prog : Program) : Prop :=
  ∀ block ∈ prog.blocks, ∃ instructions, prog.instructionsOf block = .ok instructions ∧
    ∀ inst ∈ instructions, ∀ run ∈ target.runs inst, ∃ ops, run.operands inst = .ok ops ∧
      numbering.Adjacent ops run.parity

/-- Numbers that do what the descriptors of a program ask for. -/
def Respects (numbering : Numbering) (prog : Program) : Prop :=
  ∀ binding desc offset reg number, prog.descriptors.get? binding = some desc →
    desc.registers[offset]? = some reg → desc.physicalAt offset = .ok (some number) →
    numbering.numberOf reg = some number

end Numbering

namespace Program

variable {spec : MachineSpec} {options : Options} {level : Option Level}
  {program after : Program} {resolution : Resolution} {seeded walked : Pass}
  {order : List BlockId} {code : BlockId → List Line}

section

variable (resolves : Resolves ⟨spec.target, options, level⟩ program seeded walked resolution after)
  (shown : program.Shows order code)

include resolves shown

/-- The walks made every run of the body hold. -/
theorem Resolves.served : Pass.Served program.blocks program.blocks walked := by
  have steady := Seeding.steady_of_seedAll resolves.seeds
  obtain ⟨code', shown'⟩ := steady.shown shown
  have walks := resolves.walks
  rw [shown'.blocks_eq] at walks
  have served : Pass.Served order (order.reverse ++ []) walked :=
    Pass.resolveBlocks_keeps (Pass.Served order) Pass.resolveBlock_serves
      shown'.arranged.orderNodup (fun _ mem => mem)
      ⟨steady.sound, steady.unmarked, code', shown', nofun⟩ walks
  obtain ⟨code'', shown'', serves⟩ := served.lines
  rw [shown.blocks_eq]
  exact ⟨served.sound, served.unmarked, code'', shown'', fun blk mem =>
    serves blk (by simpa using mem)⟩

/-- Every run that is left in the body was made to hold. -/
theorem Resolves.serves :
    ∀ blk ∈ after.blocks, ∃ instructions, after.instructionsOf blk = .ok instructions ∧
      ∀ inst ∈ instructions, ∀ run ∈ MachineSpec.runs inst,
        ∃ ops, run.operands inst = .ok ops ∧ walked.graph.Meets ops run.parity := by
  obtain ⟨code, shown, serves⟩ := (resolves.served shown).lines
  rw [← resolves.result] at shown
  rw [shown.blocks_eq]
  intro blk mem
  refine ⟨_, shown.instructionsOf_body mem, fun inst listed run isRun => ?_⟩
  obtain ⟨line, isMem, rfl⟩ := List.mem_map.mp listed
  obtain ⟨ops, isOperands, answers⟩ := serves blk mem line isMem run isRun
  exact ⟨ops, isOperands, answers.meets⟩

end

/-- Numbers that are accepted for every chain put the operands of every run next to each other.
If the program noted all its registers, they also give the members of descriptors the numbers
that they are fixed to. -/
theorem adjacent_of_assignAll (verified : options.verifyAssignments = true)
    (shown : program.Shows order code)
    (yields : (resolve ⟨spec.target, options, level⟩).Yields program resolution after)
    {assignments : List (NodeId × UInt32)} {numbering : Numbering}
    (heads : ∀ head, head ∈ resolution.numbering.graph.heads ↔ ∃ base, (head, base) ∈ assignments)
    (accepted : (Numbering.assignAll assignments).Yields resolution.numbering () numbering) :
    numbering.Aligns spec.target after ∧ (program.Closed → numbering.Respects after) := by
  obtain ⟨seeded, walked, resolves⟩ := resolve_yields yields
  have extends' := resolves.extends
  have sound : resolution.numbering.graph.Sound := by
    rw [resolves.numbering]
    exact extends'.refines.sound
  obtain ⟨graph, holding⟩ := Numbering.assignAll_yields sound.toShaped
    (by rw [resolves.numbering]; exact verified)
    (fun assignment member => (heads assignment.1).mpr ⟨assignment.2, member⟩) accepted
  have graph' : numbering.graph = walked.graph := by
    rw [graph, resolves.numbering]
    rfl
  rw [← graph] at sound heads holding
  have numbered : ∀ head ∈ numbering.graph.heads, ∃ base, numbering.Holds head base :=
    fun head isHead => holding head isHead (.inl ((heads head).mp isHead))
  refine ⟨fun block member => ?_, ?_⟩
  · obtain ⟨instructions, listed, serves⟩ := resolves.serves shown block member
    refine ⟨instructions, listed, fun instruction inside run isRun => ?_⟩
    obtain ⟨operands, isOperands, meets⟩ := serves instruction inside run isRun
    refine ⟨operands, isOperands, meets.imp_right fun ⟨virtual, holds⟩ =>
    ⟨virtual, fun asked => ?_⟩⟩
    exact Numbering.ascends_of_runHolds numbered sound (graph' ▸ holds) asked
  · intro closed binding descriptor offset register number found place physical
    obtain ⟨_, _, _, _, settled⟩ := Seeding.seedAll_yields closed resolves.seeds
    rw [resolves.result, extends'.keeps.descriptors] at found
    obtain ⟨one, isOne, members⟩ := settled binding descriptor found
    cases found.symm.trans isOne
    obtain ⟨pin, ⟨_, isPhysical, rfl⟩, isPin⟩ := members offset register place
    cases physical.symm.trans isPhysical
    rw [← extends'.refines.pin, ← graph'] at isPin
    obtain ⟨id, named⟩ : ∃ id, numbering.graph.find register = some id := by
      obtain ⟨id, named, _⟩ := Option.bind_eq_some_iff.mp isPin
      exact ⟨id, named⟩
    obtain ⟨chosen, isChosen, _, pinned⟩ := Numbering.number_of_find numbered sound named
    rw [isChosen, pinned _ number isPin rfl]

/-- The numbers from five on for three registers, of which the first and the last are pinned. -/
theorem adjacent_pinned_ends : ∃ resolution after numbering,
      (resolve standardSetting).Yields (pinnedProgram 5 7) resolution after ∧
        (Numbering.assignAll [(⟨0⟩, 5)]).Yields resolution.numbering () numbering ∧
        numbering.Aligns MachineSpec.standard.target after ∧ numbering.Respects after := by
  obtain ⟨resolution, after, numbering, yields, accepted, heads⟩ :
      ∃ resolution after numbering,
        (resolve standardSetting).Yields (pinnedProgram 5 7) resolution after ∧
          (Numbering.assignAll [(⟨0⟩, 5)]).Yields resolution.numbering () numbering ∧
          resolution.numbering.graph.heads = [⟨0⟩] := ⟨_, _, _, ⟨rfl, rfl⟩, ⟨rfl, rfl⟩, rfl⟩
  have built : (pinnedProgram 5 7).Built fun _ => True := built_pinnedProgram ⟨rfl, rfl⟩
  obtain ⟨_, _, shown, _⟩ := built.shows
  have isHead : ∀ head, head ∈ resolution.numbering.graph.heads ↔
      ∃ base, (head, base) ∈ [((⟨0⟩ : NodeId), (5 : UInt32))] := by
    rw [heads]
    simp
  obtain ⟨aligns, respects⟩ := adjacent_of_assignAll rfl shown yields isHead accepted
  exact ⟨resolution, after, numbering, yields, accepted, aligns, respects built.closed⟩

/-! ### A register that is not in use -/

/-- A copy into a register that is pushed without being noted, and two outputs that are contested
by an input. The copy becomes the member of the first output, and the second one gets the same
register anew. -/
def sharedOutputs : Step Program Unit := do
  let entry ← addBlock "entry"
  let _ ← push entry (.move (.temp 3) (.temp 1))
  let _ ← declare (.input .primary none [.temp 1, .temp 2])
  let _ ← declare (.output .output (some 3) [.temp 1])
  let _ ← declare (.output .output (some 5) [.temp 2])

/-- Where a register is not noted, a member may get another number than it is fixed to. -/
theorem pin_lost_on_unnoted_register : ∃ resolution after numbering desc,
      (resolve standardSetting).Yields (sharedOutputs.leaves (.empty "main")) resolution after ∧
        resolution.numbering.graph.heads = [⟨0⟩, ⟨2⟩] ∧
        (Numbering.assignAll [(⟨0⟩, 0), (⟨2⟩, 5)]).Yields resolution.numbering () numbering ∧
        after.descriptors.get? ⟨1⟩ = some desc ∧ desc.registers = [.temp 3] ∧
        desc.physicalAt 0 = .ok (some 3) ∧ numbering.numberOf (.temp 3) = some 5 :=
  ⟨_, _, _, _, ⟨rfl, rfl⟩, rfl, ⟨rfl, rfl⟩, rfl, rfl, rfl, rfl⟩

end Program

end RegisterChains

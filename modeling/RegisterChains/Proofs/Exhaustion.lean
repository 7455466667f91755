/-
This file proves that a program without descriptors is resolved unless a resource runs out. There is
nothing to seed then, the walks over its blocks stop only where a register or an instruction is
missing, and the constraints that they leave pass their check.
-/

import RegisterChains.Proofs.ClosingCheck
import RegisterChains.Proofs.Repair.Failing

namespace RegisterChains

open MachineSpec Step

namespace Pass

variable {spec : MachineSpec} {options : Options} {level : Option Level} {pass : Pass}
  {prog : Program}

/-- An error says what has run out. -/
def Exhausted (pass : Pass) : ResolutionError → Prop := pass.program.Exhausted

section

variable (ready : pass.Ready spec) (sound : pass.graph.Sound)

include ready sound

theorem stops_resolveBlock {blk : BlockId} (unmarked : Tracking.Unmarked pass.graph) :
    (resolveBlock ⟨spec.target, options, level⟩ blk).FailsFor (onError Exhausted) pass := by
  unfold resolveBlock
  rw [fails_get_bind]
  refine fails_lift_bind (fun _ _ => trivial) fun first _ => ?_
  refine fails_lift_bind (fun _ _ => trivial) fun name _ => ?_
  refine fails_report_bind.mpr ?_
  -- The walk over the block starts with no copy known, and ends by forgetting all.
  have begins : Walk.Ready spec ⟨pass, .empty blk, []⟩ := ready.begin sound unmarked
  exact fails_bind (Walk.stops_visitFrom begins) fun _ _ _ =>
    fails_within.mpr Tracking.stops_finish

theorem stops_resolveBlocks {blocks : List BlockId} (unmarked : Tracking.Unmarked pass.graph) :
    (resolveBlocks ⟨spec.target, options, level⟩ blocks).FailsFor (onError Exhausted) pass := by
  induction blocks generalizing pass with
  | nil => exact fails_pure
  | cons blk rest ih =>
    refine fails_bind (stops_resolveBlock ready sound unmarked) fun _ _ resolves => ?_
    have extends' := resolveBlock_extends sound unmarked resolves
    exact ih (ready.resolveBlock sound unmarked resolves) extends'.refines.sound extends'.unmarked

theorem Ready.check_eq_ok : pass.graph.check = .ok () := by
  refine sound.check_of_nodes fun id n found => ready.bounded ?_
  have named := (sound.registered n.register id).mpr ⟨n, found, rfl⟩
  exact (ready.nodes n.register (by rw [named]; exact Option.some_ne_none id)).2

end

/-- A program without descriptors has nothing to seed. -/
theorem seedAll_yields_of_bare (bare : ∀ k, prog.descriptors.get? k = none) (target : Target) :
    Seeding.seedAll.Yields (.start target prog) () (.start target prog) := by
  have none : prog.descriptors.toList = [] := by
    refine List.eq_nil_iff_forall_not_mem.mpr fun entry mem => ?_
    cases (bare entry.1).symm.trans (Arena.mem_toList.mp mem)
  have order : Seeding.order prog = [] := by
    simp only [Seeding.order, Seeding.ofKind, none, List.filter_nil, List.map_nil, List.append_nil]
  unfold Seeding.seedAll
  rw [yields_get_bind]
  show (Seeding.seedEach (Seeding.order prog)).Yields _ _ _
  rw [order]
  exact yields_pure.mpr ⟨rfl, rfl⟩

theorem ready_start (closed : prog.Closed)
    (admitted : ∀ k inst, prog.instructions.get? k = some inst → spec.Admits inst) :
    (start spec.target prog).Ready spec where
  limits := rfl
  unpinned _ := rfl
  bounded room := ChainGraph.bounded_empty room
  suited k inst found := ⟨closed.operands k inst found, admitted k inst found⟩
  nodes _ known := absurd rfl known
  hoisted _ no := absurd no List.not_mem_nil

theorem stopsFor_resolve (closed : prog.Closed) (bare : ∀ k, prog.descriptors.get? k = none)
    (admitted : ∀ k inst, prog.instructions.get? k = some inst → spec.Admits inst)
    (error : ResolutionError) : (resolve ⟨spec.target, options, level⟩
      (.start spec.target prog)).result = .error (.error error) →
    ((resolve ⟨spec.target, options, level⟩).leaves (.start spec.target prog)).Exhausted error := by
  suffices stops : (resolve ⟨spec.target, options, level⟩).FailsFor (onError Exhausted)
      (.start spec.target prog) from stops (.error error)
  have pinned := ChainGraph.pinned_empty spec.limits
  have ready := ready_start closed admitted
  refine (seedAll_yields_of_bare bare spec.target).fails_bind ?_
  rw [fails_get_bind]
  refine fails_bind (stops_resolveBlocks ready pinned.sound pinned.unmarked)
    fun _ walked resolves => ?_
  have sound := (resolveBlocks_extends pinned.sound pinned.unmarked resolves).refines.sound
  have checked := (ready.resolveBlocks pinned.sound pinned.unmarked resolves).check_eq_ok sound
  refine fails_bind ?_ fun _ _ _ => ?_
  · unfold checkGraph
    rw [fails_get_bind, checked]
    exact fails_pure
  · rw [fails_get_bind, fails_report_bind]
    exact fails_pure

end Pass

namespace Program

variable {spec : MachineSpec} {options : Options} {level : Option Level}
  {allowed : Instruction → Prop} {program : Program} {error : ResolutionError}

/-- If the resolution of a program without descriptors ends with an error, then the registers or
the instructions have run out, provided that the temporaries have room for every run. -/
theorem exhausted_of_resolve (built : program.Built allowed)
    (bare : ∀ key, program.descriptors.get? key = none)
    (admitted : ∀ key instruction, program.instructions.get? key = some instruction →
      spec.Admits instruction)
    (stopped : (resolve ⟨spec.target, options, level⟩ program).result = .error (.error error)) :
    ((resolve ⟨spec.target, options, level⟩).leaves program).Exhausted error :=
  Pass.stopsFor_resolve built.closed bare admitted error stopped

/-- Two dot products, each of which reads a register twice in a row. There is a fresh register
for one of them. -/
def squares : Blueprint where
  blocks := [("entry", [
    { opcode := .dp, dests := [.temp 0], left := [.temp 1, .temp 1], right := [.temp 2, .temp 3] },
    { opcode := .dp, dests := [.temp 4], left := [.temp 5, .temp 5], right := [.temp 2, .temp 3] }]
  )]
  tempLimit := some 7

/-- The program with these parts. -/
def squaresProgram : Program := squares.assemble.leaves (.empty "main")

/-- The first dot product is mended by a copy, and then there is no register left. -/
theorem exhausted_squaresProgram : (squaresProgram.Built fun _ => True) ∧
      (∀ key, squaresProgram.descriptors.get? key = none) ∧
      (∀ key instruction, squaresProgram.instructions.get? key = some instruction →
        standard.Admits instruction) ∧
      (resolve standardSetting squaresProgram).result = .error (.error (.outOfRegisters 1)) ∧
      ((resolve standardSetting).leaves squaresProgram).Exhausted (.outOfRegisters 1) := by
  have built : squaresProgram.Built fun _ => True := Blueprint.built_leaves rfl
  have bare : ∀ key, squaresProgram.descriptors.get? key = none := fun key =>
    Arena.get?_eq_none_iff.mpr (Nat.zero_le key.index)
  have admitted : ∀ key instruction, squaresProgram.instructions.get? key = some instruction →
      standard.Admits instruction := by
    intro key instruction found
    have all : ∀ entry ∈ squaresProgram.instructions.toList, standard.Admits entry.2 := by decide
    exact all (key, instruction) (Arena.mem_toList.mpr found)
  have stopped : (resolve standardSetting squaresProgram).result =
      .error (.error (.outOfRegisters 1)) := by decide +kernel
  exact ⟨built, bare, admitted, stopped, exhausted_of_resolve built bare admitted stopped⟩

end Program

end RegisterChains

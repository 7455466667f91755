/-
This file says where a walk stands: which runs of an instruction are left to handle, which
instruction comes behind it and its copies, and which blocks were walked over. What one run, one
instruction or one block keeps is then kept by a whole walk.
-/

import RegisterChains.Proofs.Repair.Mending

namespace RegisterChains

open List MachineSpec

variable {blocks : List BlockId}

namespace Walk

variable {k : InstructionId} {order done : List BlockId} {code : BlockId → List Line}
  {blk : BlockId} {front : List Line} {inst ch : Instruction} {run : OperandRun}
  {ops : List Register} {g : ChainGraph} {runs : List OperandRun}

/-! ### The runs of one instruction -/

/-- These runs of an instruction are left to handle, and its other runs are served. -/
structure Left (g : ChainGraph) (inst : Instruction) (runs : List OperandRun) :
    Prop where
  own : ∀ run ∈ runs, run ∈ MachineSpec.runs inst
  served : ∀ run ∈ MachineSpec.runs inst, run ∈ runs ∨ g.Serves run inst

theorem Left.all (left : Left g inst []) : g.ServesAll inst :=
  fun run mem => (left.served run mem).resolve_left not_mem_nil

/-- A run was handled by giving it operands that serve it. -/
theorem Left.next {after : ChainGraph} (left : Left g inst (run :: runs))
    (differs : MachineSpec.Differs run inst ops ch) (refines : g.Refines after)
    (answers : after.Answers ops run.parity) : Left after ch runs := by
  refine ⟨fun one mem => ?_, fun one mem => ?_⟩
  · rw [differs.runs]
    exact left.own one (mem_cons_of_mem run mem)
  · rw [differs.runs] at mem
    by_cases same : one = run
    · rw [same]
      exact .inr ⟨ops, differs.operands, answers⟩
    · rcases left.served one mem with waiting | ⟨others, found, holds⟩
      · exact .inl ((mem_cons.mp waiting).resolve_left same)
      · have apart : run.Apart one := (runs_apart inst).forall
          (left.own run mem_cons_self) mem (Ne.symm same)
        exact .inr ⟨others, (differs.others one apart).trans found, holds.refines refines⟩

/-! ### Where the walk stands -/

/-- A block of the body that is walked over after some others. -/
structure Position (order done : List BlockId) (block : BlockId) : Prop where
  body : block ∈ order
  apart : block ∉ done
  behind : ∀ other ∈ done, other ∈ order

theorem Position.of_append (distinct : (done.reverse ++ blk :: blocks).Nodup)
    (mem : ∀ one ∈ done.reverse ++ blk :: blocks, one ∈ order) : Position order done blk := by
  refine ⟨mem blk (by simp), fun isDone => ?_, fun one isDone => ?_⟩
  · exact (nodup_append.mp distinct).2.2 blk (mem_reverse.mpr isDone) blk mem_cons_self rfl
  · exact mem one (mem_append_left _ (mem_reverse.mpr isDone))

theorem mem_runsInOrder {target : Target} :
    run ∈ runsInOrder target inst ↔ run ∈ target.runs inst := by
  unfold runsInOrder
  rw [mem_append, mem_filter, mem_filter, ← and_or_left]
  refine and_iff_left ?_
  cases run.side with
  | dest => exact .inl rfl
  | source => exact .inr rfl

/-- The runs that are written come first anyway. -/
theorem runsInOrder_eq (spec : MachineSpec) (inst : Instruction) :
    runsInOrder spec.target inst = MachineSpec.runs inst := by
  obtain ⟨written, read, split, _, isWritten, isRead⟩ := runs_split inst
  have dests : ∀ run ∈ written, run.side = .dest := by
    intro run mem
    obtain ⟨_, _, rfl⟩ := isWritten run mem
    rfl
  have sources : ∀ run ∈ read, run.side = .source := fun run mem => (isRead run mem).side
  show (MachineSpec.runs inst).filter _ ++ (MachineSpec.runs inst).filter _ = _
  rw [split, filter_append, filter_append,
    filter_eq_self.mpr fun run mem => by rw [dests run mem]; rfl,
    filter_eq_nil_iff.mpr fun run mem => by rw [sources run mem]; decide,
    filter_eq_nil_iff.mpr fun run mem => by rw [dests run mem]; decide,
    filter_eq_self.mpr fun run mem => by rw [sources run mem]; rfl,
    append_nil, nil_append]

/-- Behind an instruction and its copies stand the lines that are left. -/
theorem nextOf_behind {prog : Program} {copies : List PendingCopy} {back : List Line}
    (shown : prog.Shows order code)
    (split : code blk = front ++ (k, inst) :: (copies.map PendingCopy.line ++ back)) :
    prog.layout.nextOf ((k :: copies.map (·.instruction)).getLast (by simp)) =
      .ok (back.head?.map Prod.fst) := by
  induction copies generalizing front k inst with
  | nil => exact shown.nextOf_eq split
  | cons copy rest ih => exact ih (split.trans (append_cons ..))

end Walk

/-! ### Whole programs -/

namespace Pass

open Walk

variable {pass after : Pass} {order done : List BlockId}

/-- What resolving each block keeps holds when all blocks were resolved. -/
theorem resolveBlocks_keeps {setting : Setting} (holds : List BlockId → Pass → Prop)
    (step : ∀ {done blk pass after},
      Position order done blk → holds done pass →
      (resolveBlock setting blk).Yields pass () after → holds (blk :: done) after)
    (distinct : (done.reverse ++ blocks).Nodup) (mem : ∀ blk ∈ done.reverse ++ blocks, blk ∈ order)
    (starts : holds done pass) (ran : (resolveBlocks setting blocks).Yields pass () after) :
    holds (blocks.reverse ++ done) after := by
  induction blocks generalizing pass done with
  | nil =>
    obtain ⟨_, rfl⟩ := Step.yields_pure.mp ran
    exact starts
  | cons blk rest ih =>
    obtain ⟨_, _, resolves, later⟩ := Step.yields_bind.mp ran
    have moved : (blk :: done).reverse ++ rest = done.reverse ++ blk :: rest := by simp
    rw [reverse_cons, append_assoc, singleton_append]
    exact ih (moved ▸ distinct) (moved ▸ mem)
      (step (Position.of_append distinct mem) starts resolves) later

end Pass

end RegisterChains

/-
This file is about runs of operands. A run cuts the operand list of its side into what stands
before it, the run, and what stands behind it. Replacing the operands of a run changes the middle
part alone, so runs that do not overlap do not see each other.
-/

import Mathlib.Data.List.Basic
import RegisterChains.Machine
import RegisterChains.Proofs.Computation

namespace RegisterChains

open List OperandRun

namespace OperandRun

variable {run other : OperandRun} {inst ch : Instruction}
  {ops replacements pre post : List Register} {op : Register}

/-! ### Reading and replacing a run -/

/-- The instruction with another operand list on the side of a run. -/
def withList (run : OperandRun) (inst : Instruction) (list : List Register) : Instruction :=
  match run.side with
  | .dest => { inst with dests := list }
  | .source => { inst with sources := list }

theorem list_of_source (side : run.side = .source) (inst : Instruction) :
    run.list inst = inst.sources := by
  unfold list
  rw [side]

theorem withList_of_source (side : run.side = .source) (inst : Instruction) (list : List Register) :
    run.withList inst list = { inst with sources := list } := by
  unfold withList
  rw [side]

/-- A run is the middle part of its operand list. -/
structure Cuts (run : OperandRun) (inst : Instruction)
    (before ops behind : List Register) : Prop where
  list : run.list inst = before ++ ops ++ behind
  start : before.length = run.start
  count : ops.length = run.count

theorem operands_eq_ok : run.operands inst = .ok ops ↔ ∃ pre post, run.Cuts inst pre ops post := by
  unfold operands
  constructor
  · intro found
    split at found
    · next inside =>
      cases found
      refine ⟨(run.list inst).take run.start,
        (run.list inst).drop (run.start + run.count), ?_, ?_, ?_⟩
      · rw [append_assoc, ← drop_drop, take_append_drop, take_append_drop]
      · rw [length_take]
        omega
      · rw [length_take, length_drop]
        omega
    · cases found
  · rintro ⟨pre, post, list, start, count⟩
    rw [list, if_pos]
    · rw [append_assoc, ← start, drop_left, ← count, take_left]
    · rw [length_append, length_append]
      omega

theorem Cuts.replace_eq_ok (cuts : run.Cuts inst pre ops post) :
    run.replace inst replacements = .ok ch ↔ replacements.length = run.count ∧
        ch = run.withList inst (pre ++ replacements ++ post) := by
  have found := operands_eq_ok.mpr ⟨pre, post, cuts⟩
  have spliced_eq : replacements.length = run.count →
      spliced run.start replacements (run.list inst) = pre ++ replacements ++ post := by
    intro same
    unfold spliced
    rw [cuts.list, append_assoc pre ops, ← cuts.start, take_left, same,
      ← cuts.count, ← append_assoc pre ops, ← length_append, drop_left]
  unfold replace
  rw [found]
  show (if replacements.length ≠ run.count then _ else _) = _ ↔ _
  by_cases same : replacements.length = run.count
  · rw [if_neg (not_not.mpr same), and_iff_right same, ← spliced_eq same]
    unfold withList OperandRun.list
    cases run.side with
    | dest | source =>
      exact ⟨fun returned => (Except.ok.inj returned).symm, fun is => is ▸ rfl⟩
  · rw [if_pos same]
    constructor
    · intro no
      cases no
    · rintro ⟨equal, _⟩
      exact absurd equal same

theorem list_withList (run : OperandRun) (inst : Instruction) (list : List Register) :
    run.list (run.withList inst list) = list := by
  unfold OperandRun.list withList
  cases run.side <;> rfl

theorem list_withList_of_ne (apart : run.side ≠ other.side) (inst : Instruction)
    (list : List Register) : other.list (run.withList inst list) = other.list inst := by
  unfold OperandRun.list withList
  cases one : run.side <;> cases two : other.side <;> simp_all

theorem Cuts.replaced (cuts : run.Cuts inst pre ops post) (same : replacements.length = run.count) :
    run.Cuts (run.withList inst (pre ++ replacements ++ post)) pre replacements post :=
  ⟨list_withList .., cuts.start, same⟩

theorem mem_of_operands (found : run.operands inst = .ok ops) (mem : op ∈ ops) :
    op ∈ inst.dests ++ inst.sources := by
  obtain ⟨pre, post, cuts⟩ := operands_eq_ok.mp found
  have inside : op ∈ run.list inst := by
    rw [cuts.list]
    exact mem_append_left _ (mem_append_right _ mem)
  unfold list at inside
  cases side : run.side with
  | dest => exact mem_append_left _ (by rwa [side] at inside)
  | source => exact mem_append_right _ (by rwa [side] at inside)

/-- When a run is replaced, the instruction names what it named before and the replacements. -/
theorem mem_of_replace (found : run.operands inst = .ok ops)
    (replaced : run.replace inst replacements = .ok ch) (mem : op ∈ ch.dests ++ ch.sources) :
    op ∈ inst.dests ++ inst.sources ∨ op ∈ replacements := by
  obtain ⟨pre, post, cuts⟩ := operands_eq_ok.mp found
  obtain ⟨_, rfl⟩ := cuts.replace_eq_ok.mp replaced
  have list := cuts.list
  unfold OperandRun.list at list
  unfold withList at mem
  cases side : run.side <;> rw [side] at list mem <;> simp only at list mem <;>
    simp only [list, mem_append] at mem ⊢ <;> tauto

/-! ### Runs that do not overlap -/

/-- No operand belongs to both runs. -/
def Apart (run other : OperandRun) : Prop :=
  run.side ≠ other.side ∨ run.start + run.count ≤ other.start ∨
    other.start + other.count ≤ run.start

theorem Apart.symm (apart : run.Apart other) : other.Apart run := by
  unfold Apart at *
  tauto

instance : Std.Symm Apart := ⟨fun _ _ => Apart.symm⟩

/-- Another run reads the same operands when a run is replaced. -/
theorem Apart.operands_eq (apart : run.Apart other) (cuts : run.Cuts inst pre ops post)
    (replaced : run.replace inst replacements = .ok ch) :
    other.operands ch = other.operands inst := by
  obtain ⟨same, rfl⟩ := cuts.replace_eq_ok.mp replaced
  by_cases sides : run.side = other.side
  · have list : ∀ inst, other.list inst = run.list inst := by
      intro inst
      unfold list
      rw [sides]
    have lengths : (pre ++ replacements ++ post).length = (pre ++ ops ++ post).length := by
      simp only [length_append, same, cuts.count]
    unfold operands
    rw [list, list, list_withList, cuts.list, lengths]
    refine if_congr Iff.rfl (congrArg Except.ok ?_) rfl
    -- Position by position: the two lists differ only inside the run.
    refine ext_getElem? fun i => ?_
    rw [getElem?_take, getElem?_take]
    by_cases inside : i < other.count
    · rw [if_pos inside, if_pos inside, getElem?_drop, getElem?_drop]
      rcases apart with no | behindRun | beforeRun
      · exact absurd sides no
      · have past : (pre ++ replacements).length ≤ other.start + i ∧
            (pre ++ ops).length ≤ other.start + i := by
          simp only [length_append, same, cuts.count, cuts.start]
          omega
        rw [getElem?_append_right past.1, getElem?_append_right past.2]
        simp only [length_append, same, cuts.count]
      · have early : other.start + i < pre.length := by
          rw [cuts.start]
          omega
        rw [append_assoc, append_assoc, getElem?_append_left early, getElem?_append_left early]
    · rw [if_neg inside, if_neg inside]
  · unfold operands
    rw [list_withList_of_ne sides]

/-- Swizzles do not matter for the operands of a run. -/
theorem operands_withSwizzles (run : OperandRun) (inst : Instruction) (swizzles : List Swizzle) :
    run.operands { inst with swizzles := swizzles } = run.operands inst := by
  unfold operands list
  cases run.side <;> rfl

end OperandRun

/-! ### Reading a run in another order -/

namespace Target

variable {accepts : Instruction → OperandRun → List Nat → Bool} {run : OperandRun}
  {inst ch : Instruction} {order : List Nat}

/-- The operands of a run are moved, and its swizzle follows. -/
structure Moves (run : OperandRun) (inst : Instruction) (order : List Nat)
    (ops reordered : List Register) (slot : Nat) (swizzle : Swizzle) (moved : Instruction) :
    Prop where
  length : order.length = run.count
  isSlot : run.swizzle = some slot
  isRun : run.operands inst = .ok ops
  origins : List.Forall₂ (fun origin op => ops[origin]? = some op) order reordered
  replaced : run.replace inst reordered = .ok moved
  isSwizzle : moved.swizzles[slot]? = some swizzle

theorem reorderBySwizzle_eq_ok
    (reorders : reorderBySwizzle accepts inst run order = .ok (some ch)) :
    ∃ ops reordered slot swizzle moved, Moves run inst order ops reordered slot swizzle moved ∧
      ch = { moved with swizzles := moved.swizzles.set slot (swizzle.permuted order) } := by
  unfold reorderBySwizzle at reorders
  split at reorders
  · cases reorders
  next accepted =>
  cases isSlot : run.swizzle with
  | none =>
    rw [isSlot] at reorders
    cases reorders
  | some slot =>
    rw [isSlot] at reorders
    obtain ⟨ops, isOperands, rest⟩ := except_bind_eq_ok.mp reorders
    obtain ⟨reordered, isReordered, rest⟩ := except_bind_eq_ok.mp rest
    obtain ⟨moved, isMoved, rest⟩ := except_bind_eq_ok.mp rest
    split at rest
    · next swizzle isSwizzle =>
      cases rest
      refine ⟨ops, reordered, slot, swizzle, moved,
        ⟨?_, isSlot, isOperands, ?_, isMoved, isSwizzle⟩, rfl⟩
      · simp only [Bool.or_eq_true, not_or] at accepted
        simpa using accepted.1
      · refine (except_mapM_eq_ok.mp isReordered).imp fun origin op picks => ?_
        split at picks
        · next found =>
          cases picks
          exact found
        · cases picks
    · cases rest

/-- Operands that are all there are picked one by one. -/
theorem filterMap_of_origins {ops reordered : List Register}
    (origins : List.Forall₂ (fun origin op => ops[origin]? = some op) order reordered) :
    order.filterMap (ops[·]?) = reordered := by
  induction origins with
  | nil => rfl
  | cons found _ ih =>
    rw [filterMap_cons_some found, ih]

section

variable {ops : List Register} {count : Nat} (permutation : order.Perm (List.range count))
  (length : ops.length = count)

include permutation length

/-- All operands are there for an order that names each place once. -/
theorem origins_of_perm : List.Forall₂ (fun origin op => ops[origin]? = some op) order
      (order.filterMap (ops[·]?)) := by
  have inside : ∀ origin ∈ order, origin < ops.length := fun origin mem =>
    length ▸ mem_range.mp (permutation.mem_iff.mp mem)
  clear permutation
  induction order with
  | nil => exact .nil
  | cons origin rest ih =>
    have found := getElem?_eq_getElem (inside origin mem_cons_self)
    rw [filterMap_cons_some found]
    exact .cons found (ih fun one mem => inside one (mem_cons_of_mem _ mem))

theorem length_of_perm : (order.filterMap (ops[·]?)).length = count :=
  (origins_of_perm permutation length).length_eq.symm.trans
    (permutation.length_eq.trans length_range)

end

end Target

namespace MachineSpec

variable {inst ch : Instruction}

/-! ### The runs of the standard target -/

/-- The runs depend on the opcode and on how many operands there are. -/
theorem runs_congr (opcode : ch.opcode = inst.opcode)
    (dests : ch.dests.length = inst.dests.length)
    (sources : ch.sources.length = inst.sources.length) : runs ch = runs inst := by
  unfold runs
  rw [opcode, dests, sources]

theorem runs_move (dest source : Register) : runs (.move dest source) = [] := rfl

theorem runs_pack (dests sources : List Register) : runs (.plain .pack dests sources) =
    if 2 ≤ dests.length then [.dests 0 dests.length .any] else [] := rfl

theorem runs_apart (inst : Instruction) : (runs inst).Pairwise Apart := by
  unfold runs
  cases inst.opcode with
  | pack =>
    simp only
    split
    · exact pairwise_singleton ..
    · exact List.Pairwise.nil
  | vmov =>
    simp only
    split
    · exact pairwise_pair.mpr (.inl (by simp [dests, sources]))
    · exact List.Pairwise.nil
  | dp =>
    simp only
    split
    · exact pairwise_pair.mpr (.inr (.inl (by simp [sources])))
    · exact List.Pairwise.nil
  | smp =>
    simp only
    refine pairwise_append.mpr ⟨?_, ?_, fun one isOne other isOther => .inl ?_⟩
    · split
      · exact pairwise_singleton ..
      · exact List.Pairwise.nil
    · split
      · exact pairwise_singleton ..
      · exact List.Pairwise.nil
    · split at isOne
      · split at isOther
        · rw [mem_singleton.mp isOne, mem_singleton.mp isOther]
          simp [dests, sources]
        · cases isOther
      · cases isOne
  | mov | fadd | fmul | wdf | nop => exact List.Pairwise.nil

/-! ### Changing one run -/

/-- An instruction has other operands in one run, and differs in no other run. -/
structure Differs (run : OperandRun) (inst : Instruction) (operands : List Register)
    (changed : Instruction) : Prop where
  operands : run.operands changed = .ok operands
  others : ∀ other, run.Apart other → other.operands changed = other.operands inst
  runs : runs changed = runs inst

variable {run : OperandRun} {ops replacements : List Register} {spec : MachineSpec}
  {order : List Nat}

theorem differs_of_replace (found : run.operands inst = .ok ops)
    (replaced : run.replace inst replacements = .ok ch) : Differs run inst replacements ch := by
  obtain ⟨pre, post, cuts⟩ := operands_eq_ok.mp found
  obtain ⟨same, isChanged⟩ := cuts.replace_eq_ok.mp replaced
  have lengths : (pre ++ replacements ++ post).length = (run.list inst).length := by
    simp only [cuts.list, length_append, same, cuts.count]
  refine ⟨?_, fun one apart => apart.operands_eq cuts replaced, ?_⟩
  · rw [isChanged]
    exact operands_eq_ok.mpr ⟨pre, post, cuts.replaced same⟩
  · rw [isChanged]
    unfold withList
    unfold list at lengths
    cases side : run.side with
    | dest => exact runs_congr rfl (by rwa [side] at lengths) rfl
    | source => exact runs_congr rfl rfl (by rwa [side] at lengths)

theorem Differs.withSwizzles (differs : Differs run inst ops ch) (swizzles : List Swizzle) :
    Differs run inst ops { ch with swizzles := swizzles } := by
  refine ⟨?_, fun one apart => ?_, ?_⟩
  · rw [operands_withSwizzles]
    exact differs.operands
  · rw [operands_withSwizzles]
    exact differs.others one apart
  · exact (runs_congr rfl rfl rfl).trans differs.runs

/-- Reading a run in another order changes that run alone. -/
theorem differs_of_reorder (found : run.operands inst = .ok ops)
    (reorders : spec.target.reorder inst run order = .ok (some ch)) :
    Differs run inst (order.filterMap (ops[·]?)) ch := by
  obtain ⟨_, reordered, _, _, moved, moves, rfl⟩ := Target.reorderBySwizzle_eq_ok reorders
  cases found.symm.trans moves.isRun
  rw [Target.filterMap_of_origins moves.origins]
  exact (differs_of_replace found moves.replaced).withSwizzles _

/-- Reading a run in another order names no other registers. -/
theorem mem_of_reorder (reorders : spec.target.reorder inst run order = .ok (some ch))
    {r : Register} (mem : r ∈ ch.dests ++ ch.sources) : r ∈ inst.dests ++ inst.sources := by
  obtain ⟨ops, reordered, _, _, moved, moves, rfl⟩ := Target.reorderBySwizzle_eq_ok reorders
  rcases mem_of_replace moves.isRun moves.replaced mem with old | taken
  · exact old
  · rw [← Target.filterMap_of_origins moves.origins] at taken
    obtain ⟨_, _, isOperand⟩ := mem_filterMap.mp taken
    exact mem_of_operands moves.isRun (mem_of_getElem? isOperand)

/-! ### The kinds of runs -/

/-- The runs that can be written: all destinations of a copy or a sample. -/
def IsWritten (inst : Instruction) (run : OperandRun) : Prop :=
  (inst.opcode = .pack ∨ inst.opcode = .vmov ∨ inst.opcode = .smp) ∧
    ∃ parity, run = .dests 0 inst.dests.length parity

/-- The runs that can be read. -/
inductive IsRead (inst : Instruction) : OperandRun → Prop where
  | copied : inst.opcode = .vmov →
    IsRead inst (.sources 0 inst.sources.length none)
  | sampled : inst.opcode = .smp →
    IsRead inst (.sources 0 inst.sources.length (some 0))
  | left : inst.opcode = .dp →
    IsRead inst (.sources 0 (inst.sources.length / 2) (some 0))
  | right : inst.opcode = .dp →
    IsRead inst (.sources (inst.sources.length / 2) (inst.sources.length / 2) (some 1))

/-- An instruction has two runs at most. -/
theorem length_runs_le (inst : Instruction) : (runs inst).length ≤ 2 := by
  unfold runs
  cases inst.opcode with
  | smp =>
    simp only [length_append]
    split <;> split <;> simp
  | pack | vmov | dp =>
    simp only
    split <;> simp
  | mov | fadd | fmul | wdf | nop => exact Nat.zero_le 2

/-- At most one run is written, and it comes first. -/
theorem runs_split (inst : Instruction) :
    ∃ written read, runs inst = written ++ read ∧ written.length ≤ 1 ∧
      (∀ run ∈ written, IsWritten inst run) ∧ ∀ run ∈ read, IsRead inst run := by
  have none : ∀ {kind : OperandRun → Prop}, ∀ run ∈ ([] : List OperandRun), kind run :=
    forall_mem_nil _
  have one : ∀ {kind : OperandRun → Prop} {run : OperandRun}, kind run →
    ∀ other ∈ [run], kind other :=
    fun holds other inside => mem_singleton.mp inside ▸ holds
  unfold runs
  cases opcode : inst.opcode with
  | pack =>
    simp only
    split
    · exact ⟨[_], [], rfl, Nat.le_refl 1, one ⟨.inl opcode, _, rfl⟩, none⟩
    · exact ⟨[], [], rfl, Nat.zero_le 1, none, none⟩
  | vmov =>
    simp only
    split
    · exact ⟨[_], [_], rfl, Nat.le_refl 1, one ⟨.inr (.inl opcode), _, rfl⟩, one (.copied opcode)⟩
    · exact ⟨[], [], rfl, Nat.zero_le 1, none, none⟩
  | dp =>
    simp only
    split
    · refine ⟨[], [_, _], rfl, Nat.zero_le 1, none, fun run inside => ?_⟩
      rcases mem_cons.mp inside with rfl | inside
      · exact .left opcode
      · exact one (.right opcode) run inside
    · exact ⟨[], [], rfl, Nat.zero_le 1, none, none⟩
  | smp =>
    refine ⟨_, _, rfl, ?_, ?_, ?_⟩
    · split
      · exact Nat.le_refl 1
      · exact Nat.zero_le 1
    · split
      · exact one ⟨.inr (.inr opcode), _, rfl⟩
      · exact none
    · split
      · exact one (.sampled opcode)
      · exact none
  | mov | fadd | fmul | wdf | nop => exact ⟨[], [], rfl, Nat.zero_le 1, none, none⟩

theorem IsRead.side (read : IsRead inst run) : run.side = .source := by
  cases read <;> rfl

/-- Only the first run can be one that is written. -/
theorem side_of_mem_tail (mem : run ∈ (runs inst).tail) : run.side = .source := by
  obtain ⟨written, read, split, short, _, reads⟩ := runs_split inst
  rw [split] at mem
  refine (reads run ?_).side
  match written, short with
  | [], _ => exact mem_of_mem_tail mem
  | [_], _ => exact mem

theorem isWritten_of_mem (mem : run ∈ runs inst) (side : run.side = .dest) :
    IsWritten inst run := by
  obtain ⟨written, read, split, _, writes, reads⟩ := runs_split inst
  rw [split] at mem
  rcases mem_append.mp mem with inside | inside
  · exact writes run inside
  · cases side.symm.trans (reads run inside).side

theorem isRead_of_mem (mem : run ∈ runs inst) (side : run.side = .source) : IsRead inst run := by
  obtain ⟨written, read, split, _, writes, reads⟩ := runs_split inst
  rw [split] at mem
  rcases mem_append.mp mem with inside | inside
  · obtain ⟨_, _, rfl⟩ := writes run inside
    cases side
  · exact reads run inside

/-- The operands of a run that is written are the destinations. -/
theorem IsWritten.operands_eq (written : IsWritten inst run) :
    run.operands inst = .ok inst.dests := by
  obtain ⟨_, parity, rfl⟩ := written
  exact operands_eq_ok.mpr ⟨[], [], ⟨(append_nil _).symm, rfl, rfl⟩⟩

theorem IsWritten.replace_eq_ok (written : IsWritten inst run) :
    run.replace inst replacements = .ok ch ↔ replacements.length = inst.dests.length ∧
        ch = { inst with dests := replacements } := by
  obtain ⟨_, parity, rfl⟩ := written
  have cuts : (dests 0 inst.dests.length parity).Cuts inst []
      inst.dests [] := ⟨(append_nil _).symm, rfl, rfl⟩
  rw [cuts.replace_eq_ok, append_nil, nil_append]
  rfl

/-! ### Cheaper encodings -/

/-- A sample is narrowed to what stands between the first and the last channel that is read. -/
theorem narrowSample_eq_ok {relaxation : Relaxation}
    (narrows : narrowSample inst = .ok (some relaxation)) :
    ∃ lo hi, firstUsed inst (List.range inst.dests.length) = .ok (some lo) ∧
      firstUsed inst (List.range inst.dests.length).reverse = .ok (some hi) ∧
      hi - lo + 1 ≠ inst.dests.length ∧ relaxation = .narrow { inst with
        dests := (inst.dests.drop lo).take (hi - lo + 1)
        firstChannel := (inst.firstChannel.toNat + lo).toUInt8 } := by
  unfold narrowSample at narrows
  obtain ⟨lo, isLow, narrows⟩ := except_bind_eq_ok.mp narrows
  cases lo with
  | none => cases narrows
  | some lo =>
    obtain ⟨hi, isHigh, narrows⟩ := except_bind_eq_ok.mp narrows
    cases hi with
    | none => cases narrows
    | some hi =>
      simp only at narrows
      split at narrows
      · cases narrows
      · next ne =>
        cases narrows
        exact ⟨lo, hi, isLow, isHigh, ne, rfl⟩

/-- A sample that is narrowed loses destinations. -/
theorem relax_eq_narrow {narrowed : Instruction}
    (relaxes : relax inst run = .ok (some (.narrow narrowed))) :
    (inst.opcode = .smp ∧ run.side = .dest) ∧ narrowSample inst = .ok (some (.narrow narrowed)) ∧
      narrowed.opcode = inst.opcode ∧ narrowed.sources = inst.sources ∧
      narrowed.dests.Sublist inst.dests := by
  unfold relax at relaxes
  split at relaxes
  · unfold splitIntoMoves at relaxes
    split at relaxes <;> cases relaxes
  · unfold splitIntoMoves at relaxes
    split at relaxes <;> cases relaxes
  · next isSample isDest =>
    refine ⟨⟨isSample, isDest⟩, relaxes, ?_⟩
    obtain ⟨_, _, _, _, _, same⟩ := narrowSample_eq_ok relaxes
    cases same
    exact ⟨rfl, rfl, (take_sublist _ _).trans (drop_sublist _ _)⟩
  · cases relaxes

/-- A copy is expanded into moves, none of which overwrites what a later one reads. -/
theorem relax_eq_expand {sequence : List Instruction}
    (relaxes : relax inst run = .ok (some (.expand sequence))) :
    (inst.opcode = .vmov ∨ inst.opcode = .pack) ∧ clobbers inst = false ∧
      sequence = zipWith Instruction.move inst.dests inst.sources := by
  have split : splitIntoMoves inst = some (.expand sequence) →
      clobbers inst = false ∧ sequence = zipWith Instruction.move inst.dests inst.sources := by
    intro splits
    unfold splitIntoMoves at splits
    split at splits
    · cases splits
    · next free =>
      cases splits
      exact ⟨Bool.eq_false_iff.mpr free, rfl⟩
  unfold relax at relaxes
  split at relaxes
  · next opcode => exact ⟨.inl opcode, split (Except.ok.inj relaxes)⟩
  · next opcode => exact ⟨.inr opcode, split (Except.ok.inj relaxes)⟩
  · obtain ⟨_, _, _, _, _, no⟩ := narrowSample_eq_ok relaxes
    cases no
  · cases relaxes

end MachineSpec

end RegisterChains

/-
This file proves that the standard target always has an answer. The mask of a sample has eight
channels, a swizzle has four lanes, and both are only asked about what they have: instructions that
were made by the rules of their opcodes keep to these ranges, and so do those that a repair makes of
them. Only a sample of more than eight destinations has no answer, if a cheaper encoding is looked
for.
-/

import Mathlib.Data.List.Perm.Subperm
import RegisterChains.Proofs.Rewriting

namespace RegisterChains

open List MachineSpec OperandRun

variable {order : List Nat} {narrowed inst ch : Instruction} {spec : MachineSpec}
  {swizzle : Swizzle} {opcode : Opcode}

/-! ### Runs and orders -/

namespace MachineSpec

variable {inst : Instruction} {run : OperandRun}

/-- A run lies inside its operands. -/
theorem exists_operands (mem : run ∈ runs inst) : ∃ ops, run.operands inst = .ok ops := by
  cases side : run.side with
  | dest => exact ⟨_, (isWritten_of_mem mem side).operands_eq⟩
  | source =>
    have lt : run.start + run.count ≤ (run.list inst).length := by
      rw [list_of_source side]
      cases isRead_of_mem mem side with
      | copied _ | sampled _ => exact Nat.le_of_eq (Nat.zero_add _)
      | left _ =>
        show 0 + inst.sources.length / 2 ≤ inst.sources.length
        omega
      | right _ =>
        show inst.sources.length / 2 + inst.sources.length / 2 ≤ inst.sources.length
        omega
    exact ⟨_, if_pos lt⟩

/-- A list names each of the first positions once exactly if it has them in some order. -/
theorem isPermutation_iff {count : Nat} :
    isPermutation order count = true ↔ order.Perm (List.range count) := by
  unfold isPermutation
  rw [Bool.and_eq_true, beq_iff_eq, all_eq_true]
  constructor
  · rintro ⟨length, covers⟩
    have within : List.range count ⊆ order := fun i isIndex =>
      contains_iff_mem.mp (covers i isIndex)
    exact ((List.Nodup.subperm nodup_range within).perm_of_length_le
      (Nat.le_of_eq (by rw [length, length_range]))).symm
  · intro permutation
    refine ⟨permutation.length_eq.trans length_range, fun i isIndex => ?_⟩
    exact contains_iff_mem.mpr (permutation.mem_iff.mpr isIndex)

/-- Source runs can be read in any order when there is a swizzle to read them through. -/
theorem acceptsOrder_iff : acceptsOrder inst run order = true ↔ run.side = .source ∧
      (∃ slot, run.swizzle = some slot ∧ slot < inst.swizzles.length) ∧
      order.Perm (List.range run.count) := by
  unfold acceptsOrder
  cases run.swizzle with
  | none => simp
  | some slot =>
    simp only [Bool.and_eq_true, beq_iff_eq, isPermutation_iff, decide_eq_true_eq,
      Option.some.injEq, exists_eq_left']
    exact and_right_comm.trans and_assoc

end MachineSpec

/-- Two instructions differ only in which operands they name and how they read them. -/
structure Instruction.SameShape (inst changed : Instruction) : Prop where
  opcode : changed.opcode = inst.opcode
  dests : changed.dests.length = inst.dests.length
  sources : changed.sources.length = inst.sources.length
  channel : changed.firstChannel = inst.firstChannel

theorem Instruction.SameShape.runs_eq (same : inst.SameShape ch) : runs ch = runs inst :=
  runs_congr same.opcode same.dests same.sources

namespace OperandRun

variable {run : OperandRun} {inst ch : Instruction} {ops replacements : List Register}

theorem exists_replace (found : run.operands inst = .ok ops)
    (same : replacements.length = run.count) : ∃ ch, run.replace inst replacements = .ok ch := by
  obtain ⟨pre, behind, cuts⟩ := operands_eq_ok.mp found
  exact ⟨_, cuts.replace_eq_ok.mpr ⟨same, rfl⟩⟩

/-- Other operands in a run are as many, and the swizzles stay. -/
theorem sameShape_of_replace (replaced : run.replace inst replacements = .ok ch) :
    inst.SameShape ch ∧ ch.swizzles = inst.swizzles := by
  obtain ⟨ops, found, _⟩ := except_bind_eq_ok.mp replaced
  obtain ⟨pre, behind, cuts⟩ := operands_eq_ok.mp found
  obtain ⟨same, rfl⟩ := cuts.replace_eq_ok.mp replaced
  have length : (pre ++ replacements ++ behind).length = (run.list inst).length := by
    rw [cuts.list, length_append, length_append, length_append, length_append, same, cuts.count]
  unfold withList
  unfold list at length
  cases side : run.side with
  | dest =>
    rw [side] at length
    exact ⟨⟨rfl, length, rfl, rfl⟩, rfl⟩
  | source =>
    rw [side] at length
    exact ⟨⟨rfl, rfl, length, rfl⟩, rfl⟩

end OperandRun

/-! ### Instructions that keep to their ranges -/

namespace Instruction

/-- An instruction keeps to the ranges of its encoding. The mask of a sample is only read when a
cheaper encoding is looked for. -/
structure Encodable (relaxes : Bool) (inst : Instruction) : Prop where
  width : inst.opcode = .smp → inst.dests.length < 32
  channels : relaxes = true → inst.opcode = .smp → inst.firstChannel.toNat + inst.dests.length ≤ 8
  lanes : ∀ swizzle ∈ inst.swizzles, ∀ lane ∈ swizzle.selection, lane.toNat < 4
  vectors : ∀ run ∈ runs inst, run.swizzle.isSome = true → run.count ≤ 4

/-- Only runs that are read have swizzles. -/
theorem vectors_of_read
    (short : ∀ run, IsRead inst run → run.swizzle.isSome = true → run.count ≤ 4) :
    ∀ run ∈ runs inst, run.swizzle.isSome = true → run.count ≤ 4 := by
  intro run mem swizzled
  cases side : run.side with
  | dest =>
    obtain ⟨_, _, rfl⟩ := isWritten_of_mem mem side
    cases swizzled
  | source => exact short run (isRead_of_mem mem side) swizzled

namespace Encodable

variable {relaxes : Bool} {inst ch : Instruction} {run : OperandRun}

section

variable (encodable : inst.Encodable relaxes)

include encodable

theorem congr (same : inst.SameShape ch)
    (lanes : ∀ swizzle ∈ ch.swizzles, ∀ lane ∈ swizzle.selection, lane.toNat < 4) :
    ch.Encodable relaxes where
  width isSample := same.dests ▸ encodable.width (same.opcode ▸ isSample)
  channels enabled isSample := by
    rw [same.channel, same.dests]
    exact encodable.channels enabled (same.opcode ▸ isSample)
  lanes := lanes
  vectors := by
    rw [same.runs_eq]
    exact encodable.vectors

theorem rename (r replacement : Register) : (inst.rename r replacement).Encodable relaxes :=
  encodable.congr ⟨rfl, length_map _, length_map _, rfl⟩ encodable.lanes

theorem replace {replacements : List Register} (replaced : run.replace inst replacements = .ok ch) :
    ch.Encodable relaxes := by
  obtain ⟨same, swizzles⟩ := sameShape_of_replace replaced
  exact encodable.congr same (swizzles ▸ encodable.lanes)

end

/-- A lane that follows its operand names a place of the run. -/
theorem moved_lt {lane : UInt8} (short : order.length ≤ 4) (lt : lane.toNat < 4) :
    (Swizzle.moved order lane).toNat < 4 := by
  unfold Swizzle.moved
  cases found : order.idxOf? lane.toNat with
  | none => exact lt
  | some pos =>
    obtain ⟨bound, _⟩ := idxOf?_eq_some_iff.mp found
    exact Nat.lt_of_le_of_lt (Nat.mod_le ..) (Nat.lt_of_lt_of_le bound short)

theorem reorder (encodable : inst.Encodable relaxes) (mem : run ∈ runs inst)
    (reorders : spec.target.reorder inst run order = .ok (some ch)) : ch.Encodable relaxes := by
  obtain ⟨ops, reordered, slot, swizzle, moved, moves, rfl⟩ :=
    Target.reorderBySwizzle_eq_ok reorders
  have encodable' := encodable.replace moves.replaced
  refine encodable'.congr ⟨rfl, rfl, rfl, rfl⟩ fun one isOther lane isLane => ?_
  rcases mem_or_eq_of_mem_set isOther with old | rfl
  · exact encodable'.lanes one old lane isLane
  · rw [Swizzle.selection_permuted] at isLane
    obtain ⟨origin, isOrigin, rfl⟩ := mem_map.mp isLane
    refine moved_lt ?_ (encodable'.lanes swizzle (mem_of_getElem? moves.isSwizzle) origin isOrigin)
    rw [moves.length]
    exact encodable.vectors run mem (Option.isSome_iff_exists.mpr ⟨slot, moves.isSlot⟩)

end Encodable

theorem encodable_plain (relaxes : Bool) (notSample : opcode ≠ .smp) (notDot : opcode ≠ .dp)
    (dests sources : List Register) : (plain opcode dests sources).Encodable relaxes where
  width isSample := absurd isSample notSample
  channels _ isSample := absurd isSample notSample
  lanes _ no := by cases no
  vectors := vectors_of_read fun run read swizzled => by
    cases read with
    | copied _ => cases swizzled
    | sampled isSample => exact absurd isSample notSample
    | left isDot | right isDot => exact absurd isDot notDot

theorem encodable_move (relaxes : Bool) (dest source : Register) :
    (move dest source).Encodable relaxes :=
  encodable_plain relaxes (by decide) (by decide) ..

end Instruction

/-! ### Instructions made by the rules -/

/-- A swizzle that reads in order has at most four lanes, each of which has a letter. -/
theorem Swizzle.identity_eq_ok {length : Nat} (made : identity length = .ok swizzle) :
    length ≤ 4 ∧ ∀ lane ∈ swizzle.selection, lane.toNat < 4 := by
  unfold identity at made
  split at made
  · next short =>
    unfold ofLanes at made
    split at made
    · cases made
      refine ⟨short, fun lane mem => ?_⟩
      obtain ⟨place, rfl⟩ := Vector.mem_ofFn.mp (Vector.mem_toList_iff.mp (mem_of_mem_take mem))
      rw [getElem?_map]
      by_cases lt : place.val < length
      · rw [getElem?_range lt]
        exact Nat.lt_of_le_of_lt (Nat.mod_le ..) place.isLt
      · rw [getElem?_eq_none (by rw [length_range]; exact Nat.not_lt.mp lt)]
        decide
    · cases made
  · cases made

namespace Instruction

variable {relaxes : Bool} {inst : Instruction} {dests : List Register}

/-- Instructions that are made by the rules of their opcodes. The mask can be replaced. -/
def IsMade (inst : Instruction) : Prop :=
  ∃ opcode dests sources left right made mask,
    ofOperands opcode dests sources left right = .ok made ∧ inst = { made with writeMask := mask }

theorem encodable_of_copying {sources : List Register}
    (made : copying opcode dests sources = .ok inst) (notSample : opcode ≠ .smp)
    (notDot : opcode ≠ .dp) : inst.Encodable relaxes := by
  unfold copying at made
  split at made
  · cases made
    exact encodable_plain relaxes notSample notDot ..
  · cases made

theorem encodable_of_dot {dest : Register} {left right : List Register}
    (made : dot dest left right = .ok inst) : inst.Encodable relaxes := by
  unfold dot at made
  obtain ⟨equal, made⟩ := except_unless_throw_eq_ok.mp made
  obtain ⟨first, isFirst, made⟩ := except_bind_eq_ok.mp made
  obtain ⟨second, isSecond, made⟩ := except_bind_eq_ok.mp made
  cases made
  obtain ⟨short, lanes⟩ := Swizzle.identity_eq_ok isFirst
  obtain ⟨short', lanes'⟩ := Swizzle.identity_eq_ok isSecond
  refine ⟨fun isOther => (by cases isOther), fun _ isOther => (by cases isOther), ?_,
    vectors_of_read fun run read _ => ?_⟩
  · intro swizzle mem
    rcases mem_pair.mp mem with rfl | rfl
    · exact lanes
    · exact lanes'
  · have half : (left ++ right).length / 2 ≤ 4 := by
      rw [length_append]
      omega
    cases read with
    | copied isOther | sampled isOther => cases isOther
    | left _ | right _ => exact half

theorem encodable_of_sample {coordinates : List Register}
    (made : sample dests coordinates = .ok inst)
    (narrow : relaxes = true → inst.opcode = .smp → inst.dests.length ≤ 8) :
    inst.Encodable relaxes := by
  obtain ⟨swizzle, isSwizzle, made⟩ := except_bind_eq_ok.mp made
  obtain ⟨mask, isMask, made⟩ := except_bind_eq_ok.mp made
  cases made
  obtain ⟨short, lanes⟩ := Swizzle.identity_eq_ok isSwizzle
  refine ⟨fun _ => ?_, fun enabled _ => ?_, ?_, vectors_of_read fun run read _ => ?_⟩
  · unfold channelMask at isMask
    split at isMask
    · assumption
    · cases isMask
  · exact Nat.le_trans (Nat.le_of_eq (Nat.zero_add _)) (narrow enabled rfl)
  · intro one mem
    rw [mem_singleton.mp mem]
    exact lanes
  · cases read with
    | sampled _ => exact short
    | copied isOther | left isOther | right isOther => cases isOther

/-- An instruction that was made by the rules keeps to the ranges of its encoding, unless it is a
sample of more channels than there are. -/
theorem IsMade.encodable (isMade : inst.IsMade)
    (narrow : relaxes = true → inst.opcode = .smp → inst.dests.length ≤ 8) :
    inst.Encodable relaxes := by
  obtain ⟨opcode, dests, sources, left, right, made, mask, makes, rfl⟩ := isMade
  suffices encodable : made.Encodable relaxes from
    encodable.congr ⟨rfl, rfl, rfl, rfl⟩ encodable.lanes
  cases opcode with
  | mov =>
    obtain ⟨_, _, makes⟩ := except_bind_eq_ok.mp makes
    obtain ⟨_, _, makes⟩ := except_bind_eq_ok.mp makes
    cases makes
    exact encodable_move ..
  | pack | vmov => exact encodable_of_copying makes (by decide) (by decide)
  | fadd | fmul =>
    obtain ⟨_, _, makes⟩ := except_bind_eq_ok.mp makes
    obtain ⟨_, _, makes⟩ := except_bind_eq_ok.mp makes
    obtain ⟨_, _, makes⟩ := except_bind_eq_ok.mp makes
    cases makes
    exact encodable_plain relaxes (by decide) (by decide) ..
  | dp =>
    obtain ⟨_, _, makes⟩ := except_bind_eq_ok.mp makes
    exact encodable_of_dot makes
  | smp => exact encodable_of_sample makes narrow
  | wdf | nop =>
    cases makes
    exact encodable_plain relaxes (by decide) (by decide) ..

end Instruction

/-! ### The answers of the target -/

namespace MachineSpec

variable {inst : Instruction} {run : OperandRun} {indices : List Nat} {i : Nat}

/-- A search through destinations ends at one of them or at none, unless it comes to one without a
channel. -/
theorem exists_firstUsed (isMem : ∀ i ∈ indices, inst.firstChannel.toNat + i < 8) :
    ∃ start, firstUsed inst indices = .ok start := by
  induction indices with
  | nil => exact ⟨none, rfl⟩
  | cons i rest ih =>
    have used : channelUsed inst i =
        .ok (inst.writeMask.toNat.testBit (inst.firstChannel.toNat + i)) :=
      if_pos (isMem i mem_cons_self)
    refine exists_bind_eq_ok used ?_
    cases inst.writeMask.toNat.testBit (inst.firstChannel.toNat + i) with
    | true => exact ⟨_, rfl⟩
    | false =>
      exact ih fun other mem => isMem other (mem_cons_of_mem _ mem)

/-- A search through destinations finds one whose channel is read, and passes over none. -/
theorem firstUsed_eq_some (found : firstUsed inst indices = .ok (some i)) :
    channelUsed inst i = .ok true ∧
      ∃ front back, indices = front ++ i :: back ∧
      ∀ other ∈ front, channelUsed inst other = .ok false := by
  induction indices with
  | nil => cases found
  | cons another rest ih =>
    obtain ⟨used, isUsed, goesOn⟩ := except_bind_eq_ok.mp found
    cases used with
    | true =>
      cases goesOn
      exact ⟨isUsed, [], rest, rfl, forall_mem_nil _⟩
    | false =>
      obtain ⟨isRead, front, back, split, unread⟩ := ih goesOn
      exact ⟨isRead, another :: front, back, congrArg _ split, forall_mem_cons.mpr ⟨isUsed, unread⟩⟩

/-- The search comes to the destination that it finds before any other one that is read. -/
theorem rel_of_firstUsed {other : Nat} {pre : Nat → Nat → Prop} (sorted : indices.Pairwise pre)
    (found : firstUsed inst indices = .ok (some i)) (mem : other ∈ indices)
    (used : channelUsed inst other = .ok true) : i = other ∨ pre i other := by
  obtain ⟨_, front, back, rfl, unread⟩ := firstUsed_eq_some found
  rcases mem_append.mp mem with early | late
  · cases (unread other early).symm.trans used
  · rcases mem_cons.mp late with same | behind
    · exact .inl same.symm
    · exact .inr ((pairwise_cons.mp (pairwise_append.mp sorted).2.1).1 other behind)

/-- Whether a sample can be narrowed is known if all its destinations have channels. -/
theorem exists_narrowSample (channels : inst.firstChannel.toNat + inst.dests.length ≤ 8) :
    ∃ result, narrowSample inst = .ok result := by
  have isMem : ∀ i ∈ List.range inst.dests.length, inst.firstChannel.toNat + i < 8 := by
    intro i mem
    have := mem_range.mp mem
    omega
  obtain ⟨lo, isLow⟩ := exists_firstUsed isMem
  obtain ⟨hi, isHigh⟩ := exists_firstUsed fun i mem =>
    isMem i (mem_reverse.mp mem)
  refine exists_bind_eq_ok isLow ?_
  cases lo with
  | none => exact ⟨_, rfl⟩
  | some lo =>
    refine exists_bind_eq_ok isHigh ?_
    cases hi with
    | none => exact ⟨_, rfl⟩
    | some hi =>
      simp only
      split <;> exact ⟨_, rfl⟩

section

variable (narrows : narrowSample inst = .ok (some (.narrow narrowed)))

include narrows

/-- A sample that is narrowed loses the destinations in front of the first channel that is read and
behind the last one. -/
theorem narrowSample_eq_narrow :
    ∃ lo hi, lo ≤ hi ∧ hi < inst.dests.length ∧ hi - lo + 1 < inst.dests.length ∧
      channelUsed inst lo = .ok true ∧ channelUsed inst hi = .ok true ∧
      (∀ i < inst.dests.length, channelUsed inst i = .ok true →
        lo ≤ i ∧ i ≤ hi) ∧ narrowed = { inst with
        dests := (inst.dests.drop lo).take (hi - lo + 1)
        firstChannel := (inst.firstChannel.toNat + lo).toUInt8 } := by
  obtain ⟨lo, hi, isLow, isHigh, ne, same⟩ := narrowSample_eq_ok narrows
  have least : ∀ i < inst.dests.length, channelUsed inst i = .ok true → lo ≤ i := by
    intro i lt used
    rcases rel_of_firstUsed pairwise_lt_range isLow (mem_range.mpr lt) used with rfl | later
    · exact Nat.le_refl lo
    · exact Nat.le_of_lt later
  have greatest : ∀ i < inst.dests.length, channelUsed inst i = .ok true → i ≤ hi := by
    intro i lt used
    rcases rel_of_firstUsed (pairwise_reverse.mpr pairwise_lt_range) isHigh
      (mem_reverse.mpr (mem_range.mpr lt)) used with rfl | earlier
    · exact Nat.le_refl hi
    · exact Nat.le_of_lt earlier
  obtain ⟨highUsed, front, back, split, _⟩ := firstUsed_eq_some isHigh
  have lt : hi < inst.dests.length := by
    refine mem_range.mp (mem_reverse.mp ?_)
    rw [split]
    exact mem_append_cons_self
  have ordered := least hi lt highUsed
  refine ⟨lo, hi, ordered, lt, by omega, (firstUsed_eq_some isLow).1, highUsed,
    fun i bound used => ⟨least i bound used, greatest i bound used⟩, ?_⟩
  cases same
  rfl

theorem fewer_of_narrowSample :
    narrowed.dests.length < inst.dests.length ∧
      narrowed.firstChannel.toNat + narrowed.dests.length ≤
        inst.firstChannel.toNat + inst.dests.length ∧
      narrowed.opcode = inst.opcode ∧ narrowed.sources = inst.sources ∧
      narrowed.swizzles = inst.swizzles := by
  obtain ⟨lo, hi, ordered, lt, fewer, _, _, _, rfl⟩ := narrowSample_eq_narrow narrows
  have channel : ((inst.firstChannel.toNat + lo).toUInt8).toNat ≤
      inst.firstChannel.toNat + lo := Nat.mod_le ..
  have length : ((inst.dests.drop lo).take (hi - lo + 1)).length = hi - lo + 1 := by
    rw [length_take, length_drop]
    omega
  exact ⟨length.symm ▸ fewer, by simp only [length]; omega, rfl, rfl, rfl⟩

end

theorem sameShape_of_reorder (reorders : spec.target.reorder inst run order = .ok (some ch)) :
    inst.SameShape ch := by
  obtain ⟨ops, reordered, slot, swizzle, moved, moves, rfl⟩ :=
    Target.reorderBySwizzle_eq_ok reorders
  obtain ⟨same, _⟩ := sameShape_of_replace moves.replaced
  exact ⟨same.opcode, same.dests, same.sources, same.channel⟩

theorem reorder_of_not_accepts (spec : MachineSpec)
    (refused : acceptsOrder inst run order = false) :
    spec.target.reorder inst run order = .ok none := by
  show Target.reorderBySwizzle acceptsOrder inst run order = .ok none
  unfold Target.reorderBySwizzle
  rw [refused, Bool.not_false, Bool.or_true]
  rfl

/-- An order that is accepted moves the operands of the run, and its swizzle follows. -/
theorem reorder_eq (spec : MachineSpec) {pre ops behind : List Register} {slot : Nat}
    (cuts : run.Cuts inst pre ops behind) (side : run.side = .source)
    (isSlot : run.swizzle = some slot) (isSwizzle : inst.swizzles[slot]? = some swizzle)
    (permutation : order.Perm (List.range run.count)) :
    spec.target.reorder inst run order = .ok (some { inst with
      sources := pre ++ order.filterMap (ops[·]?) ++ behind
      swizzles := inst.swizzles.set slot (swizzle.permuted order) }) := by
  obtain ⟨bound, _⟩ := List.getElem?_eq_some_iff.mp isSwizzle
  have accepted := acceptsOrder_iff.mpr ⟨side, ⟨slot, isSlot, bound⟩, permutation⟩
  have length := permutation.length_eq.trans length_range
  have picked := Target.origins_of_perm permutation cuts.count
  have replaced := cuts.replace_eq_ok.mpr ⟨Target.length_of_perm permutation cuts.count, rfl⟩
  rw [withList_of_source side] at replaced
  show Target.reorderBySwizzle acceptsOrder inst run order = _
  unfold Target.reorderBySwizzle
  rw [accepted, Bool.not_true, Bool.or_false, if_neg (by simp [length]), isSlot]
  refine except_bind_eq_ok.mpr ⟨ops, operands_eq_ok.mpr ⟨_, _, cuts⟩, ?_⟩
  refine except_bind_eq_ok.mpr ⟨_, except_mapM_eq_ok.mpr (picked.imp fun _ _ isOperand => ?_), ?_⟩
  · rw [isOperand]
  · refine except_bind_eq_ok.mpr ⟨_, replaced, ?_⟩
    simp only [isSwizzle]
    rfl

theorem exists_reorder (spec : MachineSpec) (mem : run ∈ runs inst) (order : List Nat) :
    ∃ result, spec.target.reorder inst run order = .ok result := by
  cases accepted : acceptsOrder inst run order with
  | false => exact ⟨_, reorder_of_not_accepts spec accepted⟩
  | true =>
    obtain ⟨side, ⟨slot, isSlot, bound⟩, permutation⟩ := acceptsOrder_iff.mp accepted
    obtain ⟨ops, found⟩ := exists_operands mem
    obtain ⟨_, _, cuts⟩ := operands_eq_ok.mp found
    exact ⟨_, reorder_eq spec cuts side isSlot (getElem?_eq_getElem bound) permutation⟩

/-- The constants that hold some values end inside the bank. -/
theorem constantRun_le {values : List UInt32} {parity : Parity} {start : UInt32}
    (small : spec.constants.length ≤ UInt32.size)
    (isStart : spec.constantRun values parity = some start) :
    start.toNat + values.length ≤ spec.constants.length := by
  have filled : values ≠ [] := by
    rintro rfl
    cases isStart
  have positive := length_pos_iff.mpr filled
  have part := (Arithmetic.constants_of_constantRun small isStart).length_le
  rw [length_drop] at part
  omega

end MachineSpec

namespace Instruction.Encodable

variable {relaxes : Bool} {inst : Instruction} {run : OperandRun}

theorem narrow (encodable : inst.Encodable relaxes)
    (relaxed : relax inst run = .ok (some (.narrow narrowed))) : narrowed.Encodable relaxes := by
  obtain ⟨⟨isSample, _⟩, narrows, _⟩ := relax_eq_narrow relaxed
  obtain ⟨fewer, channels, opcode, sources, swizzles⟩ := fewer_of_narrowSample narrows
  refine ⟨fun _ => Nat.lt_trans fewer (encodable.width isSample),
    fun enabled _ => Nat.le_trans channels (encodable.channels enabled isSample),
    swizzles ▸ encodable.lanes, vectors_of_read fun other read _ => ?_⟩
  -- The run of coordinates is the one that was there before.
  rw [isSample] at opcode
  cases read with
  | copied no | left no | right no => cases opcode.symm.trans no
  | sampled _ =>
    rw [sources]
    by_cases several : 2 ≤ inst.sources.length
    · refine encodable.vectors (.sources 0 inst.sources.length (some 0)) ?_ rfl
      unfold runs
      rw [isSample]
      simp [several]
    · show inst.sources.length ≤ 4
      omega

theorem exists_relax (encodable : inst.Encodable true) (run : OperandRun) :
    ∃ result, relax inst run = .ok result := by
  unfold relax
  split
  · exact ⟨_, rfl⟩
  · exact ⟨_, rfl⟩
  · next isSample _ =>
    exact exists_narrowSample (encodable.channels rfl isSample)
  · exact ⟨_, rfl⟩

/-- Every lane of a swizzle that is printed has a letter. -/
theorem exists_text (encodable : inst.Encodable relaxes) : ∃ text, inst.text = .ok text := by
  have letters : ∀ swizzle ∈ inst.swizzles.filter (!·.isIdentity),
      ∃ text, swizzle.text = .ok text := by
    intro swizzle mem
    have read : ∀ lane ∈ swizzle.selection, ∃ letter, Swizzle.letter lane = .ok letter := by
      intro lane isLane
      have lt := encodable.lanes swizzle (mem_filter.mp mem).1 lane isLane
      have some : lane.toNat = 0 ∨ lane.toNat = 1 ∨ lane.toNat = 2 ∨ lane.toNat = 3 := by omega
      unfold Swizzle.letter
      rcases some with same | same | same | same <;> rw [same] <;> exact ⟨_, rfl⟩
    obtain ⟨word, spelled⟩ := exists_mapM_eq_ok read
    exact exists_bind_eq_ok spelled ⟨_, rfl⟩
  obtain ⟨words, written⟩ := exists_mapM_eq_ok letters
  exact exists_bind_eq_ok written ⟨_, rfl⟩

end Instruction.Encodable

end RegisterChains

/-
This file says what becomes of an instruction that is encoded in another way. A run can be read in
another order exactly if it is read through a swizzle and the order names each of its places once.
The operands are moved by the order and the lanes by its inverse, so each lane reads what it read
before, and two orders in a row do what a single one does. A copy that is split into moves writes
what it wrote, and a sample that is narrowed keeps every channel that is read.
-/

import RegisterChains.Proofs.Encodings

namespace RegisterChains

open Arithmetic Instruction List OperandRun

/-- The order that moves operands as two orders in a row do. -/
def composedOrder (a b : List Nat) : List Nat := b.map fun place => a.getD place 0

section

variable {a b order : List Nat} {count : Nat}

theorem composedOrder_perm (isFirst : a.Perm (List.range count))
    (isSecond : b.Perm (List.range count)) : (composedOrder a b).Perm (List.range count) := by
  have listed : (List.range count).map (fun place => a.getD place 0) = a := by
    have length := isFirst.length_eq.trans length_range
    refine ext_getElem (by simp [length]) fun place _ bound => ?_
    rw [getElem_map, getElem_range, getD_eq_getElem?_getD, getElem?_eq_getElem bound,
      Option.getD_some]
  exact ((isSecond.map _).trans (Perm.of_eq listed)).trans isFirst

/-! ### Lanes -/

namespace Swizzle

variable {lane : UInt8}

/-- An operand goes to the place that an order gives it. -/
theorem moved_of_getElem? {place : UInt8} (distinct : order.Nodup)
    (stands : order[place.toNat]? = some lane.toNat) : moved order lane = place := by
  obtain ⟨bound, isLane⟩ := List.getElem?_eq_some_iff.mp stands
  have found : order.idxOf? lane.toNat = some place.toNat := by
    refine idxOf?_eq_some_iff.mpr ⟨bound, isLane, fun earlier pre same => ?_⟩
    have both : order[earlier]? = order[place.toNat]? :=
      (List.getElem?_eq_some_iff.mpr ⟨Nat.lt_trans pre bound, same⟩).trans stands.symm
    exact absurd ((getElem?_inj (Nat.lt_trans pre bound) distinct).mp both) (Nat.ne_of_lt pre)
  unfold moved
  rw [found]
  exact UInt8.ofNat_toNat

theorem moved_of_le (permutation : order.Perm (List.range count)) (outside : count ≤ lane.toNat) :
    moved order lane = lane := by
  have absent : order.idxOf? lane.toNat = none := idxOf?_eq_none_iff.mpr fun mem =>
    Nat.not_lt.mpr outside (mem_range.mp (permutation.mem_iff.mp mem))
  unfold moved
  rw [absent]

/-- In a run whose places fit in a lane, every operand has a place to go to. -/
theorem exists_place (permutation : order.Perm (List.range count)) (short : count ≤ 256)
    (lt : lane.toNat < count) :
    ∃ place : UInt8, place.toNat < count ∧ order[place.toNat]? = some lane.toNat := by
  obtain ⟨place, stands⟩ := getElem?_of_mem (permutation.mem_iff.mpr (mem_range.mpr lt))
  have bound : place < count :=
    permutation.length_eq.trans length_range ▸ (List.getElem?_eq_some_iff.mp stands).1
  have fits : place.toUInt8.toNat = place := Nat.mod_eq_of_lt (Nat.lt_of_lt_of_le bound short)
  exact ⟨place.toUInt8, fits.symm ▸ ⟨bound, stands⟩⟩

section

variable (isFirst : a.Perm (List.range count)) (isSecond : b.Perm (List.range count))
  (short : count ≤ 256)

include isFirst isSecond short

theorem moved_moved (lane : UInt8) : moved b (moved a lane) = moved (composedOrder a b) lane := by
  have composed := composedOrder_perm isFirst isSecond
  by_cases lt : lane.toNat < count
  · obtain ⟨mid, lt', goes⟩ := exists_place isFirst short lt
    obtain ⟨last, _, goes'⟩ := exists_place isSecond short lt'
    rw [moved_of_getElem? (isFirst.nodup_iff.mpr nodup_range) goes,
      moved_of_getElem? (isSecond.nodup_iff.mpr nodup_range) goes']
    refine (moved_of_getElem? (composed.nodup_iff.mpr nodup_range) ?_).symm
    unfold composedOrder
    rw [getElem?_map, goes', Option.map_some, getD_eq_getElem?_getD, goes, Option.getD_some]
  · have outside := Nat.not_lt.mp lt
    rw [moved_of_le isFirst outside, moved_of_le isSecond outside, moved_of_le composed outside]

theorem permuted_permuted (swizzle : Swizzle) :
    (swizzle.permuted a).permuted b = swizzle.permuted (composedOrder a b) := by
  unfold permuted
  congr 1
  refine Vector.ext fun lane bound => ?_
  simp only [Vector.getElem_ofFn, Fin.getElem_fin]
  split
  · exact moved_moved isFirst isSecond short _
  · rfl

end

end Swizzle

/-- Operands that were moved by one order and then by another one were moved by both at once. -/
theorem filterMap_filterMap {ops : List Register} (isFirst : a.Perm (List.range count))
    (isSecond : b.Perm (List.range count)) (length : ops.length = count) :
    b.filterMap ((a.filterMap (ops[·]?))[·]?) = (composedOrder a b).filterMap (ops[·]?) := by
  have picked := Target.origins_of_perm isFirst length
  have lengths := isFirst.length_eq.trans length_range
  unfold composedOrder
  rw [filterMap_map]
  refine filterMap_congr fun place mem => ?_
  have bound : place < a.length := lengths ▸ mem_range.mp (isSecond.mem_iff.mp mem)
  have origin := picked.get bound (picked.length_eq ▸ bound)
  simp only [get_eq_getElem] at origin
  rw [Function.comp_apply, getD_eq_getElem?_getD, getElem?_eq_getElem bound, Option.getD_some,
    origin, getElem?_eq_getElem]

end

/-! ### Instructions -/

/-- A run of sources is in another order, its swizzle reads from it what it read before, and
nothing else is different. -/
structure OperandRun.Rereads (run : OperandRun) (inst changed : Instruction) : Prop where
  rest : changed = { inst with sources := changed.sources, swizzles := changed.swizzles }
  outside : ∀ index, index < run.start ∨ run.start + run.count ≤ index →
    changed.sources[index]? = inst.sources[index]?
  others : ∀ slot, run.swizzle ≠ some slot → changed.swizzles[slot]? = inst.swizzles[slot]?
  lanes : ∀ slot ∈ run.swizzle, ∀ old ∈ inst.swizzles[slot]?,
    ∃ new ∈ changed.swizzles[slot]?, new.length = old.length ∧
      ∀ (lane : Nat) (choice : UInt8), old.selection[lane]? = some choice →
        choice.toNat < run.count → ∃ choice', new.selection[lane]? = some choice' ∧
          choice'.toNat < run.count ∧ changed.sources[run.start + choice'.toNat]? =
            inst.sources[run.start + choice.toNat]?

namespace MachineSpec

variable {spec : MachineSpec} {inst ch : Instruction} {run : OperandRun} {order : List Nat}
  {pre ops post : List Register}

/-- An order that was taken is one that the encoding can follow. -/
theorem taken_of_reorder (reorders : spec.target.reorder inst run order = .ok (some ch)) :
    run.side = .source ∧ order.Perm (List.range run.count) ∧ ∃ slot swizzle,
      run.swizzle = some slot ∧ inst.swizzles[slot]? = some swizzle := by
  cases accepted : acceptsOrder inst run order with
  | false => cases (reorder_of_not_accepts spec accepted).symm.trans reorders
  | true =>
    obtain ⟨side, ⟨slot, isSlot, bound⟩, permutation⟩ := acceptsOrder_iff.mp accepted
    exact ⟨side, permutation, slot, _, isSlot, getElem?_eq_getElem bound⟩

theorem rereads_of_perm (cuts : run.Cuts inst pre ops post) (side : run.side = .source)
    {slot : Nat} {swizzle : Swizzle} (isSlot : run.swizzle = some slot)
    (isSwizzle : inst.swizzles[slot]? = some swizzle)
    (permutation : order.Perm (List.range run.count)) (short : run.count ≤ 256) :
    run.Rereads inst { inst with
      sources := pre ++ order.filterMap (ops[·]?) ++ post
      swizzles := inst.swizzles.set slot (swizzle.permuted order) } := by
  obtain ⟨bound, _⟩ := List.getElem?_eq_some_iff.mp isSwizzle
  have list : inst.sources = pre ++ ops ++ post :=
    (list_of_source side inst).symm.trans cuts.list
  have length := Target.length_of_perm permutation cuts.count
  have reads : ∀ (run' : List Register) (place : Nat), place < run'.length →
      (pre ++ run' ++ post)[run.start + place]? = run'[place]? := by
    intro run' place small
    rw [append_assoc, ← cuts.start, getElem?_append_right (Nat.le_add_right ..),
      Nat.add_sub_cancel_left, getElem?_append_left small]
  refine ⟨rfl, fun i apart => ?_, fun one differs => ?_, ?_⟩
  · rw [list]
    rcases apart with early | late
    · rw [append_assoc, append_assoc, getElem?_append_left (cuts.start.symm ▸ early),
        getElem?_append_left (cuts.start.symm ▸ early)]
    · rw [getElem?_append_right (by rw [length_append, cuts.start, length]; exact late),
        getElem?_append_right (by rw [length_append, cuts.start, cuts.count]; exact late),
        length_append, length_append, length, cuts.count]
  · exact getElem?_set_ne fun same : slot = one => differs (same ▸ isSlot)
  · rintro _ same old isOld
    cases isSlot.symm.trans same
    cases isSwizzle.symm.trans isOld
    refine ⟨_, getElem?_set_self bound, rfl, fun lane choice chosen small => ?_⟩
    obtain ⟨place, small', stands⟩ := Swizzle.exists_place permutation short small
    refine ⟨place, ?_, small', ?_⟩
    · rw [Swizzle.selection_permuted, getElem?_map, chosen, Option.map_some,
        Swizzle.moved_of_getElem? (permutation.nodup_iff.mpr nodup_range) stands]
    · -- The place of the run that the lane reads now holds what the lane read before.
      have moved := Swizzle.getElem?_moved (Target.origins_of_perm permutation cuts.count)
        (cuts.count ▸ isPermutation_iff.mpr permutation) (cuts.count ▸ short) choice
      rw [Swizzle.moved_of_getElem? (permutation.nodup_iff.mpr nodup_range) stands] at moved
      rw [list, reads _ _ (length.symm ▸ small'), moved, reads _ _ (cuts.count.symm ▸ small)]

/-- Two orders in a row. -/
theorem reorder_reorder (cuts : run.Cuts inst pre ops post) (short : run.count ≤ 256)
    {a b : List Nat} (reorders : spec.target.reorder inst run a = .ok (some ch))
    (isSecond : b.Perm (List.range run.count)) : spec.target.reorder ch run b =
      spec.target.reorder inst run (composedOrder a b) := by
  obtain ⟨side, isFirst, slot, swizzle, isSlot, isSwizzle⟩ := taken_of_reorder reorders
  cases (reorder_eq spec cuts side isSlot isSwizzle isFirst).symm.trans reorders
  have bound := (List.getElem?_eq_some_iff.mp isSwizzle).1
  have cuts' := Cuts.mk (list_of_source side { inst with
    sources := pre ++ a.filterMap (ops[·]?) ++ post
    swizzles := inst.swizzles.set slot (swizzle.permuted a) }) cuts.start
    (Target.length_of_perm isFirst cuts.count)
  rw [reorder_eq spec cuts' side isSlot (getElem?_set_self bound) isSecond,
    reorder_eq spec cuts side isSlot isSwizzle (composedOrder_perm isFirst isSecond),
    filterMap_filterMap isFirst isSecond cuts.count, set_set,
    swizzle.permuted_permuted isFirst isSecond short]

/-- An order is taken exactly if the run is one of sources that a swizzle reads, and the order has
each place of the run once; an order that is not taken changes nothing. An instruction that was
changed reads what it read before, and two orders in a row are taken as one. -/
theorem reorder_rereads (spec : MachineSpec) (inst : Instruction) (run : OperandRun)
    (inside : run.start + run.count ≤ (run.list inst).length) (short : run.count ≤ 256) :
    (∀ order, (∃ changed, spec.target.reorder inst run order = .ok (some changed)) ↔
      run.side = .source ∧ (∃ slot, run.swizzle = some slot ∧ slot < inst.swizzles.length) ∧
        order.Perm (List.range run.count)) ∧
    (∀ order, (¬ ∃ changed, spec.target.reorder inst run order = .ok (some changed)) →
      spec.target.reorder inst run order = .ok none) ∧
    (∀ order changed, spec.target.reorder inst run order = .ok (some changed) →
      run.Rereads inst changed) ∧
    ∀ first second changed, spec.target.reorder inst run first = .ok (some changed) →
      second.Perm (List.range run.count) → spec.target.reorder changed run second =
        spec.target.reorder inst run (composedOrder first second) := by
  obtain ⟨operands, found⟩ : ∃ operands, run.operands inst = .ok operands := ⟨_, if_pos inside⟩
  obtain ⟨before, behind, cuts⟩ := operands_eq_ok.mp found
  have takes : ∀ order, run.side = .source ∧ (∃ slot, run.swizzle = some slot ∧
      slot < inst.swizzles.length) ∧ order.Perm (List.range run.count) →
        ∃ changed, spec.target.reorder inst run order = .ok (some changed) := by
    rintro order ⟨side, ⟨slot, isSlot, bound⟩, permutation⟩
    exact ⟨_, reorder_eq spec cuts side isSlot (getElem?_eq_getElem bound) permutation⟩
  refine ⟨fun order => ⟨fun ⟨_, reorders⟩ => ?_, takes order⟩, fun order refused => ?_,
    fun order changed reorders => ?_, fun first second changed reorders isSecond =>
      reorder_reorder cuts short reorders isSecond⟩
  · obtain ⟨side, permutation, slot, _, isSlot, isSwizzle⟩ := taken_of_reorder reorders
    exact ⟨side, ⟨slot, isSlot, (List.getElem?_eq_some_iff.mp isSwizzle).1⟩, permutation⟩
  · refine reorder_of_not_accepts spec (Bool.eq_false_iff.mpr fun accepted => refused ?_)
    exact takes order (acceptsOrder_iff.mp accepted)
  · obtain ⟨side, permutation, slot, swizzle, isSlot, isSwizzle⟩ := taken_of_reorder reorders
    cases (reorder_eq spec cuts side isSlot isSwizzle permutation).symm.trans reorders
    exact rereads_of_perm cuts side isSlot isSwizzle permutation short

/-- A sample reads its three coordinates in another order and then in a third one. -/
theorem reorder_rereads_turned :
    let inst : Instruction := { plain .smp [.temp 0] [.temp 1, .temp 2, .temp 3] with
      swizzles := [⟨#v[2, 0, 1, 0], 3⟩] }
    let run : OperandRun := .sources 0 3 (some 0)
    let once : Instruction := { inst with
      sources := [.temp 3, .temp 1, .temp 2], swizzles := [⟨#v[0, 1, 2, 0], 3⟩] }
    standard.target.reorder inst run [2, 0, 1] = .ok (some once) ∧ run.Rereads inst once ∧
      standard.target.reorder once run [1, 0, 2] = standard.target.reorder inst run [0, 2, 1] := by
  intro inst run once
  obtain ⟨_, _, reads, composes⟩ := reorder_rereads standard inst run (by decide) (by decide)
  have reorders : standard.target.reorder inst run [2, 0, 1] = .ok (some once) := by decide
  exact ⟨reorders, reads _ _ reorders, composes [2, 0, 1] [1, 0, 2] once reorders (by decide)⟩

end MachineSpec

/-! ### Cheaper encodings -/

/-- Of several writes to one register, the last one stays. -/
theorem Contents.write_eq_lookup (cs : Contents) (writes : List (Register × UInt32))
    (r : Register) : cs.write writes r = (writes.reverse.lookup r).getD (cs r) := by
  induction writes generalizing cs with
  | nil => rfl
  | cons entry rest ih =>
    obtain ⟨dest, v⟩ := entry
    rw [Contents.write, ih, reverse_cons, lookup_append]
    cases rest.reverse.lookup r with
    | some later => rfl
    | none =>
      by_cases same : r = dest
      · simp [same]
      · simp [lookup_cons, cs.set_of_ne v same, beq_false_of_ne same]

/-- A sample writes fewer channels, each to the register that it went to before, and all that are
read are among them. -/
structure Instruction.Narrows (inst narrowed : Instruction) (shift : Nat) : Prop where
  rest : narrowed = { inst with dests := narrowed.dests, firstChannel := narrowed.firstChannel }
  some : 0 < narrowed.dests.length
  fewer : narrowed.dests.length < inst.dests.length
  kept : ∀ index < narrowed.dests.length, narrowed.dests[index]? = inst.dests[shift + index]? ∧
    narrowed.firstChannel.toNat + index = inst.firstChannel.toNat + (shift + index)
  read : ∀ index < inst.dests.length,
    inst.writeMask.toNat.testBit (inst.firstChannel.toNat + index) = true →
      shift ≤ index ∧ index < shift + narrowed.dests.length

namespace MachineSpec

variable {inst narrowed : Instruction} {run : OperandRun}

theorem channelUsed_eq_true {i : Nat} : channelUsed inst i = .ok true ↔
    inst.firstChannel.toNat + i < 8 ∧
      inst.writeMask.toNat.testBit (inst.firstChannel.toNat + i) = true := by
  unfold channelUsed
  dsimp only
  split
  · next lt => simp [lt]
  · next outside => simp [outside]

theorem narrows_of_narrowSample (narrows : narrowSample inst = .ok (some (.narrow narrowed))) :
    ∃ shift, inst.Narrows narrowed shift ∧ narrowSample narrowed = .ok none := by
  obtain ⟨lo, hi, ordered, lt, fewer, isLow, isHigh, between, rfl⟩ :=
    narrowSample_eq_narrow narrows
  have small := (channelUsed_eq_true.mp isHigh).1
  have channel : ((inst.firstChannel.toNat + lo).toUInt8).toNat =
      inst.firstChannel.toNat + lo := Nat.mod_eq_of_lt (by change _ < 256; omega)
  have length : ((inst.dests.drop lo).take (hi - lo + 1)).length = hi - lo + 1 := by
    rw [length_take, length_drop]
    omega
  refine ⟨lo, ⟨rfl, ?_, ?_, fun i bound => ⟨?_, ?_⟩, fun i bound isRead => ?_⟩, ?_⟩
  · simp only [length]
    exact Nat.succ_pos _
  · simp only [length]
    exact fewer
  · simp only [length] at bound
    simp only [getElem?_take, if_pos bound, getElem?_drop]
  · simp only [channel]
    omega
  · -- The last channel that is read bounds all others, so no channel lies outside the mask.
    simp only [length]
    by_cases fits : inst.firstChannel.toNat + i < 8
    · have := between i bound (channelUsed_eq_true.mpr ⟨fits, isRead⟩)
      omega
    · rw [Nat.testBit_lt_two_pow (Nat.lt_of_lt_of_le inst.writeMask.toNat_lt
        (Nat.pow_le_pow_right (by decide) (Nat.not_lt.mp fits)))] at isRead
      cases isRead
  · refine narrowSample_eq_none fun i bound isEnd => channelUsed_eq_true.mpr ?_
    simp only [length] at bound isEnd
    simp only [channel]
    rcases isEnd with rfl | isLast
    · exact channelUsed_eq_true.mp isLow
    · have last : inst.firstChannel.toNat + lo + i = inst.firstChannel.toNat + hi := by omega
      rw [last]
      exact channelUsed_eq_true.mp isHigh

/-- A cheaper encoding does the same. Moves in a row leave what the copy writes at once, where the
last of several writes to a register stays. A sample that is narrowed cannot be narrowed again. -/
theorem relax_preserves (inst : Instruction) (run : OperandRun) :
    (∀ sequence, relax inst run = .ok (some (.expand sequence)) →
      (inst.opcode = .vmov ∨ inst.opcode = .pack) ∧ ∀ (arith : Arithmetic) (contents : Contents),
        arith.run sequence contents = arith.step contents inst ∧
        ∀ reg, arith.run sequence contents reg =
          ((inst.dests.zip (inst.sources.map (arith.read contents))).reverse.lookup reg).getD
            (contents reg)) ∧ ∀ narrowed, relax inst run = .ok (some (.narrow narrowed)) →
      (inst.opcode = .smp ∧ run.side = .dest) ∧ (∃ shift, inst.Narrows narrowed shift) ∧
      .dests 0 narrowed.dests.length .even ∈ runs narrowed ∧
      ∀ other, relax narrowed other = .ok none := by
  refine ⟨fun sequence relaxes => ?_, fun narrowed relaxes => ?_⟩
  · obtain ⟨opcode, free, rfl⟩ := relax_eq_expand relaxes
    refine ⟨opcode, fun arith contents =>
      ⟨run_splitIntoMoves opcode free, fun reg => ?_⟩⟩
    rw [run_splitIntoMoves opcode free, ← Contents.write_eq_lookup]
    unfold step results
    rcases opcode with isWide | isPack
    · rw [isWide]
    · rw [isPack]
  · obtain ⟨⟨isSample, side⟩, narrows, opcode, _⟩ := relax_eq_narrow relaxes
    obtain ⟨shift, keeps, settled⟩ := narrows_of_narrowSample narrows
    rw [isSample] at opcode
    refine ⟨⟨isSample, side⟩, ⟨shift, keeps⟩, ?_, fun other => ?_⟩
    · unfold runs
      rw [opcode]
      exact mem_append_left _ (by rw [if_pos keeps.some]; exact mem_singleton_self _)
    · unfold relax
      rw [opcode]
      cases other.side with
      | dest => exact settled
      | source => rfl

/-- A wide move that writes a register twice, and a sample of which only two channels are read. -/
theorem relax_preserves_ends :
    let wide := plain .vmov [.temp 1, .temp 2, .temp 1] [.temp 2, .temp 3, .temp 3]
    let sample : Instruction :=
      { plain .smp [.temp 4, .temp 5, .temp 6, .temp 7] [.temp 8] with writeMask := 6 }
    (∀ (arith : Arithmetic) (contents : Contents), arith.run [.move (.temp 1) (.temp 2),
      .move (.temp 2) (.temp 3), .move (.temp 1) (.temp 3)] contents = arith.step contents wide) ∧
    ∃ shift,
      sample.Narrows { sample with dests := [.temp 5, .temp 6], firstChannel := 1 } shift := by
  intro wide sample
  have splits : relax wide (.dests 0 3 .any) = .ok (some (.expand [.move (.temp 1) (.temp 2),
    .move (.temp 2) (.temp 3), .move (.temp 1) (.temp 3)])) := by decide
  have narrows : relax sample (.dests 0 4 .even) = .ok (some (.narrow
    { sample with dests := [.temp 5, .temp 6], firstChannel := 1 })) := by decide
  exact ⟨fun arith contents => ((relax_preserves _ _).1 _ splits).2 arith contents |>.1,
    ((relax_preserves _ _).2 _ narrows).2.1⟩

end MachineSpec

end RegisterChains

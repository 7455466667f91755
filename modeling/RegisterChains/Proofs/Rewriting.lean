/-
This file compares instructions that were rewritten with what they were before, by what they
write. Copies can be made together or one by one, as long as none of them overwrites what another
one reads. A run that is read through a swizzle can be moved around, known values can be read from
the constant bank, and a sample of which every channel is read cannot be narrowed.
-/

import RegisterChains.Proofs.Execution
import RegisterChains.Proofs.Operands
import RegisterChains.Repair.Encoding

namespace RegisterChains

open Instruction List MachineSpec OperandRun Walk

variable {values : List UInt32} {groups : List (List (Register × Register))} {v : UInt32}
  {made : List Instruction} {dests : List Register} {cs : Contents} {r : Register}

/-! ### Writing -/

/-- A register that is written with one value only holds it. -/
theorem Contents.write_of_mem {writes : List (Register × UInt32)} (mem : (r, v) ∈ writes)
    (single : ∀ entry ∈ writes, entry.1 = r → entry.2 = v) : cs.write writes r = v := by
  induction writes generalizing cs with
  | nil => cases mem
  | cons entry rest ih =>
    by_cases later : r ∈ rest.map Prod.fst
    · obtain ⟨⟨_, other⟩, inside, rfl⟩ := mem_map.mp later
      cases single _ (mem_cons_of_mem _ inside) rfl
      exact ih inside fun entry inside =>
        single entry (mem_cons_of_mem _ inside)
    · refine (Contents.write_of_notMem later).trans ?_
      rcases mem_cons.mp mem with rfl | inside
      · exact cs.set_self r v
      · exact absurd (mem_map_of_mem inside) later

/-- Something that stands once in a list has one partner. -/
theorem snd_eq_of_mem_zip {α β : Type} {front : List α} {b : List β} {one : α} {partner other : β}
    (distinct : front.Nodup) (mem : (one, partner) ∈ front.zip b)
    (inside : (one, other) ∈ front.zip b) : partner = other := by
  obtain ⟨i, placed⟩ := getElem?_of_mem mem
  obtain ⟨i', placed'⟩ := getElem?_of_mem inside
  obtain ⟨isOne, isPartner⟩ := getElem?_zip_eq_some.mp placed
  obtain ⟨isOne', isOther⟩ := getElem?_zip_eq_some.mp placed'
  obtain ⟨bound, _⟩ := List.getElem?_eq_some_iff.mp isOne
  cases (getElem?_inj bound distinct).mp (isOne.trans isOne'.symm)
  exact Option.some.inj (isPartner.symm.trans isOther)

/-- Each of some different registers holds what is written to it. -/
theorem Contents.write_zip (distinct : dests.Nodup) (mem : (r, v) ∈ dests.zip values) :
    cs.write (dests.zip values) r = v := by
  refine Contents.write_of_mem mem fun entry inside same => ?_
  obtain ⟨_, one⟩ := entry
  cases same
  exact snd_eq_of_mem_zip distinct inside mem

/-! ### Copies -/

/-- The instruction copies the first register of each pair into the second. -/
structure Instruction.Copies (inst : Instruction) (pairs : List (Register × Register)) :
    Prop where
  dests : inst.dests = pairs.map Prod.snd
  sources : inst.sources = pairs.map Prod.fst
  opcode : inst.opcode = .mov ∧ pairs.length = 1 ∨ inst.opcode = .pack

theorem Instruction.copies_move (v holder : Register) :
    (move holder v).Copies [(v, holder)] := ⟨rfl, rfl, .inl ⟨rfl, rfl⟩⟩

theorem Instruction.dests_of_copies (copies : List.Forall₂ Copies made groups) :
    made.flatMap (·.dests) = groups.flatten.map Prod.snd := by
  induction copies with
  | nil => rfl
  | cons copied _ ih =>
    rw [flatMap_cons, flatten_cons, map_append, copied.dests, ih]

namespace Arithmetic

variable {arith : Arithmetic} {cs : Contents} {inst : Instruction}

theorem step_copies {pairs : List (Register × Register)} (copies : inst.Copies pairs) :
    arith.step cs inst = cs.write (pairs.map fun pair => (pair.2, arith.read cs pair.1)) := by
  have values : arith.results inst (inst.sources.map (arith.read cs)) =
        pairs.map fun pair => arith.read cs pair.1 := by
    rw [copies.sources, map_map]
    unfold results
    rcases copies.opcode with ⟨isMove, single⟩ | isPack
    · rw [isMove]
      exact take_of_length_le (by simp [single])
    · rw [isPack]
      rfl
  rw [step, values, copies.dests, zip_map']

/-- When no copy overwrites what is copied, it does not matter in which groups copies are made. -/
theorem run_copies (copies : List.Forall₂ Copies made groups)
    (apart : ∀ pair ∈ groups.flatten, ∀ other ∈ groups.flatten, pair.1 ≠ other.2)
    (single : ∀ pair ∈ groups.flatten, ∀ other ∈ groups.flatten, pair.2 = other.2 →
      pair.1 = other.1) : ∀ pair ∈ groups.flatten, arith.run made cs pair.2 =
      arith.read cs pair.1 := by
  induction copies generalizing cs with
  | nil =>
    intro pair no
    cases no
  | @cons copy group made groups copied others ih =>
    rw [flatten_cons] at apart single ⊢
    have later : ∀ pair ∈ groups.flatten,
        arith.run made (arith.step cs copy) pair.2 = arith.read cs pair.1 := by
      intro pair mem
      have kept : pair.1 ∉ copy.dests := by
        rw [copied.dests]
        rintro written
        obtain ⟨other, inside, same⟩ := mem_map.mp written
        exact apart pair (mem_append_right _ mem) other (mem_append_left _ inside) same.symm
      rw [← read_step_of_notMem kept]
      exact ih (fun pair mem other mem' => apart pair (mem_append_right _ mem) other
          (mem_append_right _ mem'))
        (fun pair mem other mem' => single pair (mem_append_right _ mem) other
          (mem_append_right _ mem')) pair mem
    intro pair mem
    show arith.run made (arith.step cs copy) pair.2 = _
    by_cases again : ∃ other ∈ groups.flatten, other.2 = pair.2
    · obtain ⟨other, inside, same⟩ := again
      rw [← same, later other inside, single other (mem_append_right _ inside) pair mem same]
    · have absent : ∀ inst ∈ made, pair.2 ∉ inst.dests := by
        intro inst inside written
        have among : pair.2 ∈ groups.flatten.map Prod.snd := by
          rw [← dests_of_copies others]
          exact mem_flatMap.mpr ⟨inst, inside, written⟩
        obtain ⟨other, inside, same⟩ := mem_map.mp among
        exact again ⟨other, inside, same⟩
      have here : pair ∈ group := (mem_append.mp mem).resolve_right fun inside =>
        again ⟨pair, inside, rfl⟩
      rw [run_of_notMem absent, step_copies copied]
      refine Contents.write_of_mem (mem_map.mpr ⟨pair, here, rfl⟩) fun entry inside same => ?_
      obtain ⟨other, among, rfl⟩ := mem_map.mp inside
      rw [single other (mem_append_left _ among) pair mem same]

/-- Copies that are made together can be made one by one, unless one overwrites what a later one
reads. -/
theorem run_moves {sources : List Register}
    (apart : ∀ (i : Nat) dest, dests[i]? = some dest → dest ∉ sources.drop (i + 1)) :
    arith.run (zipWith move dests sources) cs =
      cs.write (dests.zip (sources.map (arith.read cs))) := by
  induction dests generalizing sources cs with
  | nil => rfl
  | cons dest dests ih =>
    cases sources with
    | nil => rfl
    | cons source sources =>
      have kept : sources.map (arith.read (arith.step cs (.move dest source))) =
          sources.map (arith.read cs) := by
        refine map_congr_left fun one mem => read_step_of_notMem fun same => ?_
        rw [mem_singleton.mp same] at mem
        exact apart 0 dest rfl mem
      rw [zipWith_cons_cons, map_cons, zip_cons_cons]
      show arith.run _ (arith.step cs (.move dest source)) = _
      rw [ih fun i one placed => apart (i + 1) one placed, kept, step_move]
      rfl

theorem run_splitIntoMoves (opcode : inst.opcode = .vmov ∨ inst.opcode = .pack)
    (fits : clobbers inst = false) :
    arith.run (zipWith move inst.dests inst.sources) cs = arith.step cs inst := by
  have values : ∀ values, arith.results inst values = values := by
    intro values
    unfold results
    rcases opcode with isWide | isPack
    · rw [isWide]
    · rw [isPack]
  rw [step, values]
  refine run_moves fun i dest placed inside => ?_
  unfold clobbers at fits
  rw [any_eq_false] at fits
  exact fits (dest, i) (mem_zipIdx_iff_getElem?.mpr placed) (contains_iff_mem.mpr inside)

/-! ### The values of an instruction -/

/-- What an instruction writes does not depend on which registers are written. -/
theorem results_congr {ch : Instruction} (opcode : ch.opcode = inst.opcode)
    (dests : ch.dests.length = inst.dests.length) (swizzles : ch.swizzles = inst.swizzles)
    (channel : ch.firstChannel = inst.firstChannel) (values : List UInt32) :
    arith.results ch values = arith.results inst values := by
  unfold results lanes
  rw [opcode, dests, swizzles, channel]

end Arithmetic

/-! ### Reading in another order -/

namespace Swizzle

variable {order : List Nat} {ops reordered : List Register}

theorem selection_permuted (swizzle : Swizzle) (order : List Nat) :
    (swizzle.permuted order).selection = swizzle.selection.map (moved order) := by
  unfold selection permuted
  refine ext_getElem (by simp) fun i bound _ => ?_
  have short : i < swizzle.length.toNat := by
    rw [length_take] at bound
    exact Nat.lt_of_lt_of_le bound (Nat.min_le_left ..)
  simp [short]

/-- A lane reads the same operand from a run that was moved, if its places fit in a lane. -/
theorem getElem?_moved
    (origins : List.Forall₂ (fun origin op => ops[origin]? = some op) order reordered)
    (permutation : isPermutation order ops.length = true) (short : ops.length ≤ 256)
    (lane : UInt8) : reordered[(moved order lane).toNat]? = ops[lane.toNat]? := by
  unfold isPermutation at permutation
  rw [Bool.and_eq_true, beq_iff_eq, all_eq_true] at permutation
  obtain ⟨length, covers⟩ := permutation
  unfold moved
  cases found : order.idxOf? lane.toNat with
  | none =>
    have outside : ops.length ≤ lane.toNat := by
      refine Nat.le_of_not_lt fun inside => idxOf?_eq_none_iff.mp found ?_
      exact contains_iff_mem.mp (covers _ (mem_range.mpr inside))
    rw [getElem?_eq_none outside,
      getElem?_eq_none (by rw [← origins.length_eq, length]; exact outside)]
  | some pos =>
    obtain ⟨bound, isLane, _⟩ := idxOf?_eq_some_iff.mp found
    have fits : (pos.toUInt8).toNat = pos :=
      Nat.mod_eq_of_lt (Nat.lt_of_lt_of_le (length ▸ bound) short)
    have picked := origins.get bound (origins.length_eq ▸ bound)
    simp only [get_eq_getElem] at picked
    rw [show order[pos] = lane.toNat from isLane] at picked
    rw [fits, picked, getElem?_eq_getElem]

theorem read_permuted (swizzle : Swizzle)
    (origins : List.Forall₂ (fun origin op => ops[origin]? = some op) order reordered)
    (permutation : isPermutation order ops.length = true) (short : ops.length ≤ 256)
    (v : Register → UInt32) :
    (swizzle.permuted order).read (reordered.map v) = swizzle.read (ops.map v) := by
  unfold Swizzle.read
  rw [selection_permuted, map_map]
  refine map_congr_left fun lane _ => ?_
  rw [Function.comp_apply, getElem?_map, getElem?_map, getElem?_moved origins permutation short]

end Swizzle

namespace Arithmetic

variable {arith : Arithmetic} {inst ch moved : Instruction} {run : OperandRun} {order : List Nat}
  {ops reordered : List Register} {slot : Nat} {swizzle : Swizzle} {spec : MachineSpec}
  {parity : Parity} {start : UInt32}

/-- A dot product reads its operands in two halves. -/
theorem results_dot (opcode : inst.opcode = .dp) {left right rest : List UInt32}
    (half : (left ++ right ++ rest).length / 2 = left.length) (equal : right.length = left.length) :
    arith.results inst (left ++ right ++ rest) =
      [arith.dot (inst.lanes 0 left) (inst.lanes 1 right)] := by
  unfold results
  rw [opcode]
  simp only
  rw [half, append_assoc, take_left, drop_left, ← equal, take_left]

/-- A run of sources was put in another order, and the lanes that read it pick what they picked
before. -/
structure Rearranged (value : Register → UInt32) (inst changed : Instruction)
    (before ops reordered behind : List Register) (slot : Nat) : Prop where
  opcode : changed.opcode = inst.opcode
  dests : changed.dests = inst.dests
  channel : changed.firstChannel = inst.firstChannel
  sources : inst.sources = before ++ ops ++ behind
  sources' : changed.sources = before ++ reordered ++ behind
  length : reordered.length = ops.length
  here : changed.lanes slot (reordered.map value) = inst.lanes slot (ops.map value)
  elsewhere : ∀ other, slot ≠ other → ∀ values, changed.lanes other values = inst.lanes other values

namespace Rearranged

variable {v : Register → UInt32} {pre post : List Register}

theorem results_sampled (rearranged : Rearranged v inst ch [] ops reordered [] 0)
    (opcode : inst.opcode = .smp) : arith.results ch (ch.sources.map v) =
      arith.results inst (inst.sources.map v) := by
  rw [rearranged.sources, rearranged.sources', nil_append, nil_append, append_nil, append_nil]
  unfold results
  rw [rearranged.opcode, opcode]
  simp only
  rw [rearranged.here, rearranged.dests, rearranged.channel]

theorem results_left (rearranged : Rearranged v inst ch [] ops reordered post 0)
    (opcode : inst.opcode = .dp) (count : ops.length = inst.sources.length / 2) :
    arith.results ch (ch.sources.map v) = arith.results inst (inst.sources.map v) := by
  have same := rearranged.length
  rw [rearranged.sources, nil_append, length_append] at count
  have half : (post.take ops.length).length = ops.length := by
    rw [length_take]
    omega
  rw [rearranged.sources, rearranged.sources', nil_append, nil_append,
    ← take_append_drop ops.length post, ← append_assoc, ← append_assoc,
    map_append, map_append, map_append, map_append,
    results_dot (rearranged.opcode.trans opcode), results_dot opcode, rearranged.here,
    rearranged.elsewhere 1 (by decide)]
  all_goals simp only [length_append, length_map, length_drop, half, same]
  all_goals omega

theorem results_right (rearranged : Rearranged v inst ch pre ops reordered post 1)
    (opcode : inst.opcode = .dp) (start : pre.length = inst.sources.length / 2)
    (count : ops.length = inst.sources.length / 2) :
    arith.results ch (ch.sources.map v) = arith.results inst (inst.sources.map v) := by
  have same := rearranged.length
  rw [rearranged.sources, length_append, length_append] at start count
  rw [rearranged.sources, rearranged.sources', map_append, map_append, map_append,
    map_append, results_dot (rearranged.opcode.trans opcode), results_dot opcode,
    rearranged.here, rearranged.elsewhere 0 (by decide)]
  all_goals simp only [length_append, length_map, same]
  all_goals omega

end Rearranged

section

variable (moves : Target.Moves run inst order ops reordered slot swizzle moved)
  (permutation : isPermutation order run.count = true) (short : run.count ≤ 256)
  (isChanged : ch = { moved with swizzles := moved.swizzles.set slot (swizzle.permuted order) })
  (v : Register → UInt32)

include moves permutation short isChanged

theorem rearranged_of_moves {pre post : List Register} (side : run.side = .source)
    (cuts : run.Cuts inst pre ops post) : Rearranged v inst ch pre ops reordered post slot := by
  obtain ⟨length, rfl⟩ := (Cuts.replace_eq_ok cuts).mp moves.replaced
  have isSwizzle := moves.isSwizzle
  rw [withList_of_source side] at isChanged isSwizzle
  have bound : slot < inst.swizzles.length := (List.getElem?_eq_some_iff.mp isSwizzle).1
  subst isChanged
  refine ⟨rfl, rfl, rfl, (list_of_source side inst).symm.trans cuts.list, rfl,
    length.trans cuts.count.symm, ?_, fun one apart values => ?_⟩
  · unfold lanes
    rw [isSwizzle, getElem?_set_self bound]
    exact swizzle.read_permuted moves.origins (cuts.count ▸ permutation) (cuts.count ▸ short) v
  · unfold lanes
    rw [getElem?_set_ne apart]

/-- An instruction computes the same when a run is moved and its swizzle follows. -/
theorem results_reordered (read : IsRead inst run) :
    arith.results ch (ch.sources.map v) = arith.results inst (inst.sources.map v) := by
  obtain ⟨pre, post, cuts⟩ := operands_eq_ok.mp moves.isRun
  have rearranged := rearranged_of_moves moves permutation short isChanged v read.side cuts
  have isSlot := moves.isSlot
  have start := cuts.start
  have count := cuts.count
  cases read with
  | copied _ => cases isSlot
  | sampled opcode =>
    cases isSlot
    obtain rfl : pre = [] := length_eq_zero_iff.mp start
    obtain rfl : post = [] := by
      have total := congrArg List.length rearranged.sources
      rw [length_append, length_append] at total
      refine length_eq_zero_iff.mp ?_
      change ops.length = inst.sources.length at count
      omega
    exact rearranged.results_sampled opcode
  | left opcode =>
    cases isSlot
    obtain rfl : pre = [] := length_eq_zero_iff.mp start
    exact rearranged.results_left opcode count
  | right opcode =>
    cases isSlot
    exact rearranged.results_right opcode start count

end

/-! ### Values that are known in advance -/

/-- The constant registers hold what a configuration says. -/
def Holds (arith : Arithmetic) (spec : MachineSpec) : Prop :=
  ∀ number v, spec.constantValue number = some v → arith.constant number = v

theorem read_of_knownValue (holds : arith.Holds spec) {op : Register}
    (known : knownValue spec.target op = some v) (cs : Contents) : arith.read cs op = v := by
  unfold knownValue at known
  unfold read
  cases kind : op.kind with
  | immediate =>
    rw [kind] at known
    exact Option.some.inj known
  | constant =>
    rw [kind] at known
    exact holds _ _ known
  | temp | primary | output =>
    rw [kind] at known
    cases known

theorem map_read_of_known (holds : arith.Holds spec)
    (known : ops.mapM (knownValue spec.target) = some values) (cs : Contents) :
    ops.map (arith.read cs) = values := by
  induction ops generalizing values with
  | nil =>
    rw [mapM_nil] at known
    exact Option.some.inj known
  | cons op rest ih =>
    rw [mapM_cons] at known
    obtain ⟨v, isValue, others⟩ := Option.bind_eq_some_iff.mp known
    obtain ⟨values, areValues, isList⟩ := Option.bind_eq_some_iff.mp others
    cases isList
    rw [map_cons, read_of_knownValue holds isValue, ih areValues]

theorem constants_of_constantRun (small : spec.constants.length ≤ UInt32.size)
    (isStart : spec.constantRun values parity = some start) :
    values <+: spec.constants.drop start.toNat := by
  unfold constantRun at isStart
  split at isStart
  · cases isStart
  · obtain ⟨first, isFirst, rfl⟩ := Option.map_eq_some_iff.mp isStart
    obtain ⟨allowed, _⟩ := find?_eq_some_iff_append.mp isFirst
    have bound := mem_range.mp (mem_of_find?_eq_some isFirst)
    rw [Bool.and_eq_true] at allowed
    rw [show first.toUInt32.toNat = first from Nat.mod_eq_of_lt (Nat.lt_of_lt_of_le bound small)]
    exact isPrefixOf_iff_prefix.mp allowed.2

/-- Known values are read from the constant bank as well. -/
theorem read_constants (holds : arith.Holds spec) (small : spec.constants.length ≤ UInt32.size)
    {constants : List Register} (known : ops.mapM (knownValue spec.target) = some values)
    (isStart : spec.constantRun values parity = some start)
    (isConstants : constantsFrom start ops.length = .ok constants) (cs : Contents) :
    constants.map (arith.read cs) = ops.map (arith.read cs) := by
  rw [map_read_of_known holds known cs]
  have length : ops.length = values.length := by
    rw [← map_read_of_known holds known cs, length_map]
  obtain ⟨rest, isPrefix⟩ := constants_of_constantRun small isStart
  unfold constantsFrom at isConstants
  split at isConstants
  · next fits =>
    cases isConstants
    rw [map_map]
    refine ext_getElem (by simp [length]) fun i bound bound' => ?_
    have placed : (start + i.toUInt32).toNat = start.toNat + i := by
      have small : i < UInt32.size := by omega
      rw [UInt32.toNat_add, show i.toUInt32.toNat = i from Nat.mod_eq_of_lt small]
      exact Nat.mod_eq_of_lt (by change _ < UInt32.size; omega)
    have stored : spec.constantValue (start + i.toUInt32) = some values[i] := by
      unfold constantValue
      rw [placed, ← getElem?_drop, ← isPrefix, getElem?_append_left bound', getElem?_eq_getElem]
    simp only [getElem_map, getElem_range, Function.comp_apply]
    exact holds _ _ stored
  · cases isConstants

end Arithmetic

/-! ### Samples -/

/-- A sample of which the channels at both ends are read is as narrow as can be. -/
theorem MachineSpec.narrowSample_eq_none {inst : Instruction}
    (used : ∀ i < inst.dests.length, i = 0 ∨ i + 1 = inst.dests.length →
      channelUsed inst i = .ok true) : narrowSample inst = .ok none := by
  cases length : inst.dests.length with
  | zero =>
    unfold narrowSample
    rw [length]
    rfl
  | succ last =>
    rw [length] at used
    have lo : firstUsed inst (List.range (last + 1)) = .ok (some 0) := by
      rw [range_succ_eq_map, firstUsed, used 0 (by omega) (.inl rfl)]
      rfl
    have hi : firstUsed inst (List.range (last + 1)).reverse = .ok (some last) := by
      rw [range_succ, reverse_append, reverse_singleton, singleton_append,
        firstUsed, used last (by omega) (.inr rfl)]
      rfl
    unfold narrowSample
    rw [length]
    simp only
    rw [lo, hi]
    exact if_pos rfl

end RegisterChains

/-
This file proves that copies are gathered into as few batches as can be. The batches list the
members that need a copy, each of them once and in order. A batch in place is full, or what comes
behind it is not copied in place: so no range of members that could be copied together has the
first members of two batches in it, and whoever divides the copies into such ranges needs one for
each batch.
-/

import Mathlib.Data.List.Induction
import Mathlib.Data.List.Nodup
import Mathlib.Data.List.Pairwise
import Mathlib.Data.List.Perm.Subperm
import RegisterChains.Repair.Copying

namespace RegisterChains

namespace Batch

open List

variable {width : Nat} {hoistable : Nat → Bool} {choices front : List Choice} {choice : Choice}
  {batches : List Batch} {next index : Nat} {batch : Batch}

/-! ### What is copied -/

/-- The members that a batch copies. -/
def positions : Batch → List Nat
  | hoist index => [index]
  | inPlace start count => range' start count

/-- The members of a batch in place, as a first member and a number of members. -/
def range? : Batch → Option (Nat × Nat)
  | hoist _ => none
  | inPlace start count => some (start, count)

theorem mem_ranges {start count : Nat} :
    (start, count) ∈ batches.filterMap range? ↔ inPlace start count ∈ batches := by
  rw [mem_filterMap]
  refine ⟨?_, fun mem => ⟨_, mem, rfl⟩⟩
  rintro ⟨_ | _, mem, same⟩ <;> cases same
  exact mem

/-- The members that need a copy. -/
def needed (choices : List Choice) : List Nat :=
  (range choices.length).filter fun index => (choices[index]?).any Choice.needsCopy

/-- A member is copied in the preamble. -/
def Hoisted (hoistable : Nat → Bool) (choices : List Choice) (index : Nat) : Prop :=
  choices[index]? = some .fresh ∧ hoistable index = true

/-- A member is copied in front of the instruction. -/
def Placed (hoistable : Nat → Bool) (choices : List Choice) (index : Nat) : Prop :=
  index ∈ needed choices ∧ ¬ Hoisted hoistable choices index

theorem mem_needed : index ∈ needed choices ↔
    ∃ choice, choices[index]? = some choice ∧ choice.needsCopy = true := by
  unfold needed
  rw [mem_filter, mem_range, Option.any_eq_true_iff_get]
  refine ⟨fun ⟨_, _, needs⟩ => ⟨_, (Option.some_get _).symm, needs⟩, ?_⟩
  rintro ⟨choice, isChoice, needs⟩
  refine ⟨(List.getElem?_eq_some_iff.mp isChoice).1, by rw [isChoice]; rfl, ?_⟩
  simpa only [isChoice, Option.get_some] using needs

theorem needed_concat : needed (front ++ [choice]) =
    needed front ++ if choice.needsCopy then [front.length] else [] := by
  unfold needed
  rw [length_append, length_singleton, range_succ, filter_append]
  congr 1
  · refine filter_congr fun index isEarly => ?_
    rw [getElem?_append_left (mem_range.mp isEarly)]
  · rw [filter_cons, getElem?_concat_length]
    rfl

theorem hoisted_concat : Hoisted hoistable (front ++ [choice]) index ↔
    Hoisted hoistable front index ∨
      (index = front.length ∧ choice = .fresh ∧ hoistable index = true) := by
  unfold Hoisted
  rcases Nat.lt_trichotomy index front.length with early | here | late
  · rw [getElem?_append_left early]
    simp [Nat.ne_of_lt early]
  · subst here
    simp
  · rw [getElem?_eq_none (by simp; omega), getElem?_eq_none (by omega)]
    simp [Nat.ne_of_gt late]

theorem gather_concat (width : Nat) (hoistable : Nat → Bool) (front : List Choice)
    (choice : Choice) : gather width hoistable (front ++ [choice]) =
      if !choice.needsCopy then gather width hoistable front
      else if choice = .fresh && hoistable front.length then
        gather width hoistable front ++ [hoist front.length]
      else extend width (gather width hoistable front) front.length := by
  unfold gather
  rw [zipIdx_append, foldl_append]
  simp

/-- A copy extends the last batch, or it is a batch of its own. -/
theorem extend_cases (width : Nat) (batches : List Batch) (next : Nat) :
    (∃ earlier start count, batches = earlier ++ [inPlace start count] ∧
      start + count = next ∧ count < width ∧
      extend width batches next = earlier ++ [inPlace start (count + 1)]) ∨
    (extend width batches next = batches ++ [inPlace next 1] ∧
      ∀ earlier start count, batches = earlier ++ [inPlace start count] → start + count = next →
        width ≤ count) := by
  unfold extend
  split
  · next start count isLast =>
    obtain ⟨earlier, rfl⟩ := getLast?_eq_some_iff.mp isLast
    split
    · next fits =>
      obtain ⟨ends, room⟩ := (Bool.and_eq_true _ _).mp fits
      exact .inl ⟨earlier, start, count, rfl, of_decide_eq_true ends, of_decide_eq_true room,
        by rw [dropLast_concat]⟩
    · next full =>
      refine .inr ⟨rfl, fun other start' count' same ends => ?_⟩
      cases (append_inj' same rfl).2
      simpa [ends] using full
  · next notInPlace =>
    refine .inr ⟨rfl, fun other start count same => ?_⟩
    exact absurd (same ▸ getLast?_concat) (notInPlace start count)

/-! ### The batches so far -/

/-- Where two batches begin is not in one range of members that could be copied together: it is too
far apart, or a member between is not copied in place. -/
def Apart (width : Nat) (placed : Nat → Prop) (a b : Nat × Nat) : Prop :=
  a.1 + width ≤ b.1 ∨ ∃ index, a.1 ≤ index ∧ index < b.1 ∧ ¬ placed index

/-- These are the batches for some choices. -/
structure Gathered (width : Nat) (hoistable : Nat → Bool) (choices : List Choice)
    (batches : List Batch) : Prop where
  listed : batches.flatMap positions = needed choices
  hoists : ∀ index, hoist index ∈ batches ↔ Hoisted hoistable choices index
  sizes : ∀ start count, inPlace start count ∈ batches → 1 ≤ count ∧ count ≤ max 1 width
  apart : (batches.filterMap range?).Pairwise (Apart (max 1 width) (Placed hoistable choices))

theorem lt_length_of_needed (isNeeded : index ∈ needed choices) : index < choices.length :=
  mem_range.mp (mem_of_mem_filter isNeeded)

theorem pairwise_needed (choices : List Choice) : (needed choices).Pairwise (· < ·) :=
  pairwise_lt_range.filter _

theorem placed_concat (isEarly : index < front.length) :
    Placed hoistable (front ++ [choice]) index ↔ Placed hoistable front index := by
  unfold Placed Hoisted
  rw [mem_needed, mem_needed, getElem?_append_left isEarly]

theorem Apart.concat {a b : Nat × Nat} (isEarly : b.1 ≤ front.length)
    (apart : Apart width (Placed hoistable front) a b) :
    Apart width (Placed hoistable (front ++ [choice])) a b := by
  refine apart.imp_right ?_
  rintro ⟨index, lower, before, notPlaced⟩
  exact ⟨index, lower, before, mt (placed_concat (Nat.lt_of_lt_of_le before isEarly)).mp notPlaced⟩

namespace Gathered

variable (gathered : Gathered width hoistable choices batches) {range : Nat × Nat}

include gathered

theorem mem_positions (mem : batch ∈ batches) (covers : index ∈ batch.positions) :
    index ∈ needed choices := gathered.listed ▸ mem_flatMap.mpr ⟨batch, mem, covers⟩

/-- No member is copied twice. -/
theorem disjoint {other : Batch} (mem : batch ∈ batches) (mem' : other ∈ batches)
    (covers : index ∈ batch.positions) (covers' : index ∈ other.positions) : batch = other := by
  have nodup : (batches.flatMap positions).Nodup :=
    gathered.listed ▸ (pairwise_needed choices).imp Nat.ne_of_lt
  have separate := (nodup_flatMap.mp nodup).2
  have : Std.Symm (Function.onFun Disjoint positions) := ⟨fun _ _ apart _ one two => apart two one⟩
  by_contra different
  exact separate.forall mem mem' different covers covers'

/-- A member is copied in place exactly if it is in a batch in place. -/
theorem placed_iff : Placed hoistable choices index ↔
    ∃ start count, inPlace start count ∈ batches ∧ start ≤ index ∧ index < start + count := by
  constructor
  · rintro ⟨isNeeded, notHoisted⟩
    obtain ⟨batch, mem, covers⟩ := mem_flatMap.mp (gathered.listed ▸ isNeeded)
    cases batch with
    | hoist one =>
      cases mem_singleton.mp covers
      exact absurd ((gathered.hoists index).mp mem) notHoisted
    | inPlace start count => exact ⟨start, count, mem, mem_range'_1.mp covers⟩
  · rintro ⟨start, count, mem, covers⟩
    have covers := mem_range'_1.mpr covers
    refine ⟨gathered.mem_positions mem covers, fun hoisted => ?_⟩
    have mem' := (gathered.hoists index).mpr hoisted
    cases gathered.disjoint mem mem' covers mem_cons_self

theorem placed_of_range (isRange : range ∈ batches.filterMap range?) :
    Placed hoistable choices range.1 := by
  have mem := mem_ranges.mp isRange
  have positive := (gathered.sizes _ _ mem).1
  exact gathered.placed_iff.mpr ⟨range.1, range.2, mem, Nat.le_refl _, by omega⟩

theorem apart_concat (choice : Choice) : (batches.filterMap range?).Pairwise
    (Apart (max 1 width) (Placed hoistable (choices ++ [choice]))) := by
  refine gathered.apart.imp_of_mem fun _ mem apart => ?_
  exact apart.concat (Nat.le_of_lt (lt_length_of_needed (gathered.placed_of_range mem).1))

/-- If the last member is copied in place, then by the last batch. -/
theorem last_batch (last : Placed hoistable choices index) (isLast : index + 1 = choices.length) :
    ∃ earlier start count, batches = earlier ++ [inPlace start count] ∧
      start + count = choices.length := by
  obtain ⟨start, count, mem, lower, before⟩ := gathered.placed_iff.mp last
  obtain ⟨earlier, batch, rfl⟩ := eq_nil_or_concat' batches |>.resolve_left (ne_nil_of_mem mem)
  have inOrder := pairwise_needed choices
  rw [← gathered.listed, flatMap_append, pairwise_append] at inOrder
  have ends : ∀ position ∈ batch.positions, position ≤ index := by
    intro position covers
    have := lt_length_of_needed (gathered.mem_positions mem_append_cons_self covers)
    omega
  obtain ⟨position, covers⟩ : ∃ position, position ∈ batch.positions := by
    cases isBatch : batch with
    | hoist one => exact ⟨one, mem_cons_self⟩
    | inPlace start count =>
      have positive := (gathered.sizes start count (by simp [isBatch])).1
      exact ⟨start, mem_range'_1.mpr ⟨Nat.le_refl _, by omega⟩⟩
  rcases mem_append.mp mem with early | isBatch
  · have before := inOrder.2.2 index
      (mem_flatMap.mpr ⟨_, early, mem_range'_1.mpr ⟨lower, before⟩⟩) position
      (by rw [flatMap_singleton]; exact covers)
    exact absurd (ends position covers) (by omega)
  · cases mem_singleton.mp isBatch
    refine ⟨earlier, start, count, rfl, ?_⟩
    have := ends (start + count - 1) (mem_range'_1.mpr (by omega))
    omega

/-- Where a batch begins, the member before it is not copied in place or in a batch that is
full. -/
theorem apart_next (full : ∀ earlier start count, batches = earlier ++ [inPlace start count] →
      start + count = choices.length → width ≤ count) (isRange : range ∈ batches.filterMap range?) :
    Apart (max 1 width) (Placed hoistable choices) range (choices.length, 1) := by
  have early := lt_length_of_needed (gathered.placed_of_range isRange).1
  refine or_iff_not_imp_right.mpr fun dense => ?_
  have dense : ∀ index, range.1 ≤ index → index < choices.length →
      Placed hoistable choices index := by
    intro index lower before
    by_contra notPlaced
    exact dense ⟨index, lower, before, notPlaced⟩
  obtain ⟨earlier, first, count, rfl, ends⟩ :=
    gathered.last_batch (dense (choices.length - 1) (by omega) (by omega)) (by omega)
  have room := full earlier first count rfl ends
  have positive := (gathered.sizes first count mem_append_cons_self).1
  have apart := gathered.apart
  rw [filterMap_append, pairwise_append] at apart
  rw [filterMap_append] at isRange
  rcases mem_append.mp isRange with isEarlier | isLast
  · obtain far | ⟨index, lower, before, notPlaced⟩ :=
      apart.2.2 range isEarlier (first, count) mem_cons_self
    · omega
    · exact absurd (dense index lower (by omega)) notPlaced
  · cases mem_singleton.mp isLast
    omega

end Gathered

/-! ### One choice after the other -/

section

variable (gathered : Gathered width hoistable front batches)

include gathered

theorem gathered_kept (free : choice.needsCopy = false) :
    Gathered width hoistable (front ++ [choice]) batches where
  listed := by rw [needed_concat, free, gathered.listed]; simp
  hoists index := by
    rw [gathered.hoists, hoisted_concat]
    refine (or_iff_left ?_).symm
    rintro ⟨_, rfl, _⟩
    cases free
  sizes := gathered.sizes
  apart := gathered.apart_concat choice

theorem gathered_hoisted (allowed : hoistable front.length = true) :
    Gathered width hoistable (front ++ [.fresh]) (batches ++ [hoist front.length]) where
  listed := by
    rw [needed_concat, flatMap_append, gathered.listed]
    rfl
  hoists index := by
    rw [mem_append, gathered.hoists, hoisted_concat, mem_singleton, Batch.hoist.injEq]
    refine or_congr_right ⟨?_, And.left⟩
    rintro rfl
    exact ⟨rfl, rfl, allowed⟩
  sizes start count mem := by
    rcases mem_append.mp mem with old | new
    · exact gathered.sizes start count old
    · cases mem_singleton.mp new
  apart := by
    rw [filterMap_append]
    exact (append_nil (batches.filterMap range?)).symm ▸ gathered.apart_concat _

theorem gathered_placed (needs : choice.needsCopy = true)
    (stays : ¬ (choice = .fresh ∧ hoistable front.length = true)) :
    Gathered width hoistable (front ++ [choice]) (extend width batches front.length) := by
  have hoisted : ∀ index, Hoisted hoistable (front ++ [choice]) index ↔
      Hoisted hoistable front index := by
    intro index
    rw [hoisted_concat]
    refine or_iff_left ?_
    rintro ⟨rfl, isFresh, allowed⟩
    exact stays ⟨isFresh, allowed⟩
  have listed : needed (front ++ [choice]) = needed front ++ [front.length] := by
    rw [needed_concat, needs]
    rfl
  obtain ⟨earlier, start, count, rfl, ends, room, same⟩ | ⟨same, full⟩ :=
    extend_cases width batches front.length
  · rw [same]
    have apart := gathered.apart_concat choice
    have sizes := gathered.sizes
    refine ⟨?_, fun index => ?_, fun start' count' mem => ?_, ?_⟩
    · rw [listed, ← gathered.listed, flatMap_append, flatMap_append, append_assoc, ← ends]
      simp [positions, range'_concat]
    · rw [hoisted, ← gathered.hoists]
      simp
    · rcases mem_append.mp mem with old | new
      · exact sizes start' count' (mem_append_left _ old)
      · cases mem_singleton.mp new
        omega
    · rw [filterMap_append, pairwise_append] at apart ⊢
      refine ⟨apart.1, pairwise_singleton _ _, fun first isFirst second isNew => ?_⟩
      cases mem_singleton.mp isNew
      exact apart.2.2 first isFirst (start, count) mem_cons_self
  · rw [same]
    refine ⟨?_, fun index => ?_, fun start' count' mem => ?_, ?_⟩
    · rw [listed, ← gathered.listed, flatMap_append]
      rfl
    · rw [hoisted, ← gathered.hoists]
      simp
    · rcases mem_append.mp mem with old | new
      · exact gathered.sizes start' count' old
      · cases mem_singleton.mp new
        exact ⟨Nat.le_refl 1, Nat.le_max_left 1 width⟩
    · rw [filterMap_append, pairwise_append]
      refine ⟨gathered.apart_concat choice, pairwise_singleton _ _,
        fun first isFirst second isNew => ?_⟩
      cases mem_singleton.mp isNew
      exact (gathered.apart_next full isFirst).concat (Nat.le_refl _)

end

/-- Gathering the copies of a plan comes to such batches. -/
theorem gathered_gather (width : Nat) (hoistable : Nat → Bool) (choices : List Choice) :
    Gathered width hoistable choices (gather width hoistable choices) := by
  induction choices using reverseRecOn with
  | nil => exact ⟨rfl, by simp [gather, Hoisted], by simp [gather], .nil⟩
  | append_singleton front choice ih =>
    rw [gather_concat]
    split
    · next free => exact gathered_kept ih (by simpa using free)
    · next needs =>
      split
      · next hoisted =>
        obtain ⟨isFresh, allowed⟩ := (Bool.and_eq_true _ _).mp hoisted
        cases of_decide_eq_true isFresh
        exact gathered_hoisted ih allowed
      · next stays => exact gathered_placed ih (by simpa using needs) (by simpa using stays)

/-- A batch copies the member at an index. -/
def Covers (i : Nat) : Batch → Prop
  | hoist one => i = one
  | inPlace start count => start ≤ i ∧ i < start + count

theorem covers_iff : batch.Covers index ↔ index ∈ batch.positions := by
  cases batch with
  | hoist one => exact mem_singleton.symm
  | inPlace start count => exact mem_range'_1.symm

/-- The batches of a plan make the copies that its choices need, and no others. What is made
in the preamble is a copy into a fresh register that may be made there. -/
theorem gather_spec (width : Nat) (hoistable : Nat → Bool) (choices : List Choice) :
    (∀ index, (∃ batch ∈ gather width hoistable choices, batch.Covers index) ↔
      ∃ choice, choices[index]? = some choice ∧ choice.needsCopy = true) ∧
    ∀ index, hoist index ∈ gather width hoistable choices →
      choices[index]? = some .fresh ∧ hoistable index = true := by
  have gathered := gathered_gather width hoistable choices
  refine ⟨fun index => ?_, fun index => (gathered.hoists index).mp⟩
  rw [← mem_needed, ← gathered.listed, mem_flatMap]
  simp only [covers_iff]

/-- What is copied in the preamble is not copied in place as well. -/
theorem gather_apart (width : Nat) (hoistable : Nat → Bool) (choices : List Choice) {index : Nat}
    (hoisted : hoist index ∈ gather width hoistable choices)
    (mem : batch ∈ gather width hoistable choices) (inPlace : batch.isInPlace = true) :
    ¬ batch.Covers index := by
  intro covers
  cases (gathered_gather width hoistable choices).disjoint mem hoisted (covers_iff.mp covers)
    mem_cons_self
  cases inPlace

/-! ### The fewest batches -/

/-- Ranges of members divide the copies in place: each is short enough, and together they have
exactly these copies. -/
structure Divides (width : Nat) (placed : Nat → Prop) (ranges : List (Nat × Nat)) : Prop where
  short : ∀ range ∈ ranges, 1 ≤ range.2 ∧ range.2 ≤ width
  covers : ∀ index, placed index ↔ ∃ range ∈ ranges, range.1 ≤ index ∧ index < range.1 + range.2

namespace Gathered

variable (gathered : Gathered width hoistable choices batches)

include gathered

/-- The batches in place are such a division. -/
theorem divides : Divides (max 1 width) (Placed hoistable choices) (batches.filterMap range?) where
  short range mem := gathered.sizes range.1 range.2 (mem_ranges.mp mem)
  covers index := by
    rw [gathered.placed_iff]
    exact ⟨fun ⟨start, count, mem, covers⟩ => ⟨(start, count), mem_ranges.mpr mem, covers⟩,
      fun ⟨range, mem, covers⟩ => ⟨range.1, range.2, mem_ranges.mp mem, covers⟩⟩

/-- Whoever divides the copies in place needs a range for each batch, because no range has the
first members of two batches. -/
theorem countP_le {ranges : List (Nat × Nat)}
    (divides : Divides (max 1 width) (Placed hoistable choices) ranges) :
    batches.countP isInPlace ≤ ranges.length := by
  have counted : batches.countP isInPlace = (batches.filterMap range?).length := by
    rw [length_filterMap_eq_countP]
    refine countP_congr fun batch _ => ?_
    cases batch <;> simp [isInPlace, range?]
  have chosen : ∀ batch ∈ batches.filterMap range?,
      ∃ range ∈ ranges, range.1 ≤ batch.1 ∧ batch.1 < range.1 + range.2 :=
    fun batch isBatch => (divides.covers batch.1).mp (gathered.placed_of_range isBatch)
  choose! rangeOf mem covers using chosen
  have distinct : ((batches.filterMap range?).map rangeOf).Nodup := by
    rw [Nodup, pairwise_map]
    refine gathered.apart.imp_of_mem fun {a b} isFirst isSecond apart same => ?_
    have short := (divides.short _ (mem a isFirst)).2
    have begins := covers a isFirst
    have ends := same ▸ covers b isSecond
    rcases apart with far | ⟨index, lower, before, notPlaced⟩
    · omega
    · exact notPlaced ((divides.covers index).mpr ⟨_, mem a isFirst, by omega, by omega⟩)
  rw [counted, ← length_map rangeOf]
  refine (distinct.subperm fun range isRange => ?_).length_le
  obtain ⟨batch, isBatch, rfl⟩ := mem_map.mp isRange
  exact mem batch isBatch

end Gathered

end Batch

namespace Walk

open Batch

/-- How many members of a run one instruction may copy. -/
def copyWidth (setting : Setting) (run : OperandRun) : Nat :=
  if run.side = .source ∧ setting.options.packCopies = true then max 1 setting.target.packWidth
  else 1

/-- The copy of a member is made in the preamble: the member is read, hoisting is on, there is a
preamble, and a uniform operand gets a fresh register. -/
def HoistsMember (setting : Setting) (prog : Program) (run : OperandRun)
    (operands : List Register) (choices : List Choice) (i : Nat) : Prop :=
  setting.options.hoistUniformCopies = true ∧ run.side = .source ∧
    prog.preamble.isSome = true ∧ choices[i]? = some .fresh ∧
    ∃ operand, operands[i]? = some operand ∧ prog.isUniform operand = true

/-- The batches of a plan list the members that need a copy, each once and in order. They are
hoisted where they can be, no larger than a copy can be, and the others are as few as can be. -/
theorem batches_divide (setting : Setting) (program : Program) (run : OperandRun)
    (operands : List Register) (choices : List Choice) :
    let made := batches setting program run operands choices
    let placed := fun index => index ∈ needed choices ∧
      ¬ HoistsMember setting program run operands choices index
    made.flatMap positions = needed choices ∧
    (∀ index, .hoist index ∈ made ↔ HoistsMember setting program run operands choices index) ∧
    (∀ start count, .inPlace start count ∈ made →
      1 ≤ count ∧ count ≤ copyWidth setting run) ∧
    Divides (copyWidth setting run) placed (made.filterMap range?) ∧
    ∀ ranges, Divides (copyWidth setting run) placed ranges →
      made.countP isInPlace ≤ ranges.length := by
  intro made placed
  let width := if (run.side == .source && setting.options.packCopies) = true then
    max setting.target.packWidth 1 else 1
  let hoistable := fun index : Nat =>
    (run.side == .source && setting.options.hoistUniformCopies && program.preamble.isSome) &&
      (operands[index]?).any program.isUniform
  have gathered : Gathered width hoistable choices made := gathered_gather width hoistable choices
  have sameWidth : copyWidth setting run = max 1 width := by
    unfold copyWidth width
    by_cases packs : run.side = .source ∧ setting.options.packCopies = true
    · rw [if_pos packs, if_pos (by simpa using packs)]
      omega
    · rw [if_neg packs, if_neg (by simpa using packs), Nat.max_self]
  have hoists : ∀ index, Hoisted hoistable choices index ↔
      HoistsMember setting program run operands choices index := by
    intro index
    unfold Hoisted HoistsMember hoistable
    simp only [Bool.and_eq_true, beq_iff_eq, Option.any_eq_true]
    tauto
  have samePlaced : placed = Placed hoistable choices :=
    funext fun index => propext (and_congr_right' (not_congr (hoists index).symm))
  rw [sameWidth, samePlaced]
  exact ⟨gathered.listed, fun index => (gathered.hoists index).trans (hoists index),
    gathered.sizes, gathered.divides, fun ranges => gathered.countP_le⟩

end Walk

end RegisterChains

/-
This file reads a layout as lists. A layout stores the order of blocks and of instructions
in links; here the links are shown to describe one list of blocks and one list of
instructions for each block, and each operation is shown to do to the lists what its name
says.
-/

import RegisterChains.Layout
import RegisterChains.Proofs.Runs
import RegisterChains.Proofs.Stores
import Mathlib.Logic.Function.Basic

namespace RegisterChains

open Function SideTable

namespace Layout

open List

variable {layout ch : Layout} {order : List BlockId} {cs : BlockId → List InstructionId}
  {blk other : BlockId} {k anchor : InstructionId} {pre post list : List InstructionId}

/-! ### The lists of a layout -/

/-- The links of a layout describe these lists. -/
structure Arranged (layout : Layout) (order : List BlockId)
    (contents : BlockId → List InstructionId) : Prop where
  entry : layout.entry = order.head?
  exit : layout.exit = order.getLast?
  following : ∀ front block back, order = front ++ block :: back →
    ∃ ends, layout.blocks.get? block = some ends ∧ ends.next = back.head?
  orderNodup : order.Nodup
  ends : ∀ block ends, layout.blocks.get? block = some ends →
    ends.first = (contents block).head? ∧ ends.last = (contents block).getLast?
  placed : ∀ block before key behind, contents block = before ++ key :: behind →
    layout.places.get? key = some ⟨before.getLast?, behind.head?, block⟩
  listed : ∀ key place, layout.places.get? key = some place → key ∈ contents place.block
  nodup : ∀ block, (contents block).Nodup
  known : ∀ block, contents block ≠ [] → ∃ ends, layout.blocks.get? block = some ends

theorem arranged_empty : empty.Arranged [] fun _ => [] where
  entry := rfl
  exit := rfl
  following front blk back split := by simp at split
  orderNodup := nodup_nil
  ends _ _ found := by cases found
  placed _ pre k post split := by simp at split
  listed _ _ found := by cases found
  nodup _ := nodup_nil
  known _ filled := absurd rfl filled

namespace Arranged

section

variable (arranged : layout.Arranged order cs)

include arranged

/-- An instruction is in the list of its block only. -/
theorem place_of_mem (mem : k ∈ cs blk) :
    ∃ place, layout.places.get? k = some place ∧ place.block = blk := by
  obtain ⟨pre, post, split⟩ := append_of_mem mem
  exact ⟨_, arranged.placed blk pre k post split, rfl⟩

theorem exists_place (mem : k ∈ cs blk) : ∃ place, layout.places.get? k = some place :=
  (arranged.place_of_mem mem).imp fun _ => And.left

theorem block_unique (mem : k ∈ cs blk) (mem' : k ∈ cs other) : blk = other := by
  obtain ⟨place, found, rfl⟩ := arranged.place_of_mem mem
  obtain ⟨place', found', rfl⟩ := arranged.place_of_mem mem'
  cases found.symm.trans found'
  rfl

theorem mem_order (mem : blk ∈ order) : ∃ ends, layout.blocks.get? blk = some ends := by
  obtain ⟨front, back, split⟩ := append_of_mem mem
  obtain ⟨ends, found, _⟩ := arranged.following front blk back split
  exact ⟨ends, found⟩

end

/-! ### What walks compute -/

section

variable (arranged : layout.Arranged order cs) {budget : Nat}

include arranged

theorem instructionsFrom_eq (split : cs blk = pre ++ post) (enough : post.length ≤ budget) :
    layout.instructionsFrom budget post.head? = post := by
  induction post generalizing pre budget with
  | nil => cases budget <;> rfl
  | cons k rest ih =>
    obtain ⟨budget, rfl⟩ : ∃ left, budget = left + 1 := by
      rw [length_cons] at enough
      exact ⟨budget - 1, by omega⟩
    have split' : cs blk = (pre ++ [k]) ++ rest := by
      rw [split, append_assoc, singleton_append]
    rw [head?_cons, instructionsFrom, arranged.placed blk pre k rest split,
      Option.bind_some, ih split' (by simpa using enough)]

theorem length_contents (blk : BlockId) : (cs blk).length ≤ layout.places.slots.size :=
  length_le (arranged.nodup blk) fun _ => arranged.exists_place

theorem blocksFrom_eq {front back : List BlockId} (split : order = front ++ back)
    (enough : back.length ≤ budget) : layout.blocksFrom budget back.head? = back := by
  induction back generalizing front budget with
  | nil => cases budget <;> rfl
  | cons blk rest ih =>
    obtain ⟨budget, rfl⟩ : ∃ left, budget = left + 1 := by
      rw [length_cons] at enough
      exact ⟨budget - 1, by omega⟩
    obtain ⟨ends, found, next⟩ := arranged.following front blk rest split
    have split' : order = (front ++ [blk]) ++ rest := by
      rw [split, append_assoc, singleton_append]
    rw [head?_cons, blocksFrom, found, Option.bind_some, next, ih split' (by simpa using enough)]

theorem blockList_eq : layout.blockList = order := by
  unfold blockList
  rw [arranged.entry]
  refine arranged.blocksFrom_eq (nil_append order).symm ?_
  exact length_le arranged.orderNodup fun blk mem => arranged.mem_order mem

theorem firstOf_eq {first : Option InstructionId} : layout.firstOf blk = .ok first ↔
      (∃ ends, layout.blocks.get? blk = some ends) ∧ first = (cs blk).head? := by
  unfold firstOf
  simp only [except_bind_eq_ok, except_pure_eq_ok]
  constructor
  · rintro ⟨ends, found, rfl⟩
    have found := SideTable.get_eq_ok.mp found
    exact ⟨⟨ends, found⟩, (arranged.ends blk ends found).1⟩
  · rintro ⟨⟨ends, found⟩, rfl⟩
    exact ⟨ends, SideTable.get_eq_ok.mpr found, (arranged.ends blk ends found).1⟩

theorem instructionsOf_eq {keys : List InstructionId} : layout.instructionsOf blk = .ok keys ↔
      (∃ ends, layout.blocks.get? blk = some ends) ∧ keys = cs blk := by
  unfold instructionsOf
  simp only [except_bind_eq_ok, except_pure_eq_ok]
  have listed := arranged.instructionsFrom_eq (nil_append (cs blk)).symm
    (arranged.length_contents blk)
  constructor
  · rintro ⟨first, found, rfl⟩
    obtain ⟨known, rfl⟩ := arranged.firstOf_eq.mp found
    exact ⟨known, listed⟩
  · rintro ⟨known, rfl⟩
    exact ⟨_, arranged.firstOf_eq.mpr ⟨known, rfl⟩, listed⟩

theorem nextOf_eq (split : cs blk = pre ++ k :: post) : layout.nextOf k = .ok post.head? := by
  unfold nextOf
  rw [SideTable.get_eq_ok.mpr (arranged.placed blk pre k post split)]
  rfl

end

end Arranged

/-- No block is lost. -/
def Keeps (layout ch : Layout) : Prop :=
  ∀ blk ends, layout.blocks.get? blk = some ends → ∃ ends', ch.blocks.get? blk = some ends'

/-! ### Changing the middle of a block -/

/-- The links change as they have to when an instruction in the middle of a block is taken out, or
another one is put there. -/
structure Splices (layout changed : Layout) (block : BlockId) (before : List InstructionId)
    (taken put : Option InstructionId) (behind : List InstructionId) : Prop where
  fresh : ∀ key ∈ put, layout.places.get? key = none
  places : ∀ key, changed.places.get? key =
    if put = some key then some ⟨before.getLast?, behind.head?, block⟩
    else if taken = some key then none
    else (layout.places.get? key).map fun place =>
      { place with
        prev := if behind.head? = some key then put.or before.getLast? else place.prev
        next := if before.getLast? = some key then put.or behind.head? else place.next }
  blocks : ∀ other, changed.blocks.get? other = if other = block then
    (layout.blocks.get? other).map fun ends => { ends with
      first := (before ++ (put.toList ++ behind)).head?
      last := (before ++ (put.toList ++ behind)).getLast? }
    else layout.blocks.get? other
  known : ∃ ends, layout.blocks.get? block = some ends
  entry : changed.entry = layout.entry
  exit : changed.exit = layout.exit

namespace Splices

variable {taken put : Option InstructionId} (splices : layout.Splices ch blk pre taken put post)

include splices

theorem keeps : layout.Keeps ch := by
  intro other ends found
  rw [splices.blocks, found]
  split <;> exact ⟨_, rfl⟩

/-- An instruction that is neither put nor taken nor beside them keeps its place. -/
theorem place_eq (notPut : put ≠ some k) (notTaken : taken ≠ some k)
    (notPrev : pre.getLast? ≠ some k) (notNext : post.head? ≠ some k) :
    ch.places.get? k = layout.places.get? k := by
  rw [splices.places, if_neg notPut, if_neg notTaken]
  simp only [if_neg notPrev, if_neg notNext, Option.map_id']

end Splices

namespace Arranged

theorem absent (arranged : layout.Arranged order cs) (fresh : layout.places.get? k = none)
    (blk : BlockId) : k ∉ cs blk := by
  intro mem
  obtain ⟨place, found⟩ := arranged.exists_place mem
  cases fresh.symm.trans found

section

variable {taken put : Option InstructionId} (arranged : layout.Arranged order cs)
  (split : cs blk = pre ++ (taken.toList ++ post))
  (splices : layout.Splices ch blk pre taken put post)

include arranged split splices

theorem nodup_splice : (pre ++ (put.toList ++ post)).Nodup := by
  have distinct := arranged.nodup blk
  have rest : (pre ++ post).Nodup :=
    (split ▸ distinct).sublist ((sublist_append_right ..).append_left pre)
  cases put with
  | none => exact rest
  | some k =>
    have absent := arranged.absent (splices.fresh k rfl) blk
    rw [split] at absent
    refine nodup_middle.mpr (nodup_cons.mpr ⟨fun inside => absent ?_, rest⟩)
    exact (mem_append.mp inside).elim (mem_append_left _)
      fun late => mem_append_right _ (mem_append_right _ late)

/-- The instructions of the block itself have their new places. -/
theorem placed_splice {front back : List InstructionId} {other : InstructionId}
    (split' : pre ++ (put.toList ++ post) = front ++ other :: back) :
    ch.places.get? other = some ⟨front.getLast?, back.head?, blk⟩ := by
  have distinct := arranged.nodup_splice split splices
  have old := arranged.nodup blk
  rw [split] at old
  have mem : other ∈ pre ++ (put.toList ++ post) := by simp [split']
  rw [mem_append, mem_append] at mem
  rcases mem with inBefore | inPut | inBehind
  · obtain ⟨start, rest, rfl⟩ := append_of_mem inBefore
    rw [append_assoc, cons_append] at split split' distinct old
    obtain ⟨rfl, rfl⟩ := append_cons_inj distinct split'.symm
    have outside := (nodup_cons.mp (nodup_middle.mp distinct)).1
    have outside' := (nodup_cons.mp (nodup_middle.mp old)).1
    simp only [mem_append, not_or, Option.mem_toList] at outside outside'
    have notFirst : post.head? ≠ some other := fun isFirst =>
      outside.2.2.2 (mem_of_mem_head? isFirst)
    rw [splices.places, if_neg outside.2.2.1, if_neg outside'.2.2.1,
      arranged.placed blk front other _ split, Option.map_some, if_neg notFirst]
    cases rest with
    | nil =>
      rw [if_pos getLast?_concat]
      cases put <;> rfl
    | cons next rest =>
      have notLast : (front ++ other :: next :: rest).getLast? ≠ some other := by
        rw [getLast?_append_of_ne_nil _ (by simp), getLast?_cons_cons]
        exact fun isLast => outside.2.1 (mem_of_mem_getLast? isLast)
      rw [if_neg notLast]
      rfl
  · obtain rfl := Option.mem_toList.mp inPut
    obtain ⟨rfl, rfl⟩ := append_cons_inj distinct split'.symm
    rw [splices.places, if_pos rfl]
  · obtain ⟨start, rest, rfl⟩ := append_of_mem inBehind
    rw [← append_assoc, ← append_assoc] at split split' distinct old
    obtain ⟨rfl, rfl⟩ := append_cons_inj distinct split'.symm
    have outside := (nodup_cons.mp (nodup_middle.mp distinct)).1
    have outside' := (nodup_cons.mp (nodup_middle.mp old)).1
    simp only [mem_append, not_or, Option.mem_toList] at outside outside'
    have notLast : pre.getLast? ≠ some other := fun isLast =>
      outside.1.1.1 (mem_of_mem_getLast? isLast)
    rw [splices.places, if_neg outside.1.1.2, if_neg outside'.1.1.2,
      arranged.placed blk _ other back split, Option.map_some, if_neg notLast]
    cases start with
    | nil =>
      rw [nil_append, head?_cons, if_pos rfl]
      cases put <;> simp
    | cons next start =>
      have notFirst : (next :: start ++ other :: back).head? ≠ some other := fun isFirst =>
        outside.1.2 (mem_of_mem_head? isFirst)
      rw [if_neg notFirst, getLast?_append_of_ne_nil _ (by simp),
        getLast?_append_of_ne_nil _ (by simp)]

theorem splice : ch.Arranged order (update cs blk (pre ++ (put.toList ++ post))) := by
  refine ⟨splices.entry.trans arranged.entry, splices.exit.trans arranged.exit, ?_,
    arranged.orderNodup, ?_, ?_, ?_, ?_, ?_⟩
  · intro front one back split
    obtain ⟨ends, found, next⟩ := arranged.following front one back split
    rw [splices.blocks, found]
    split <;> exact ⟨_, rfl, next⟩
  · intro one ends found
    rw [splices.blocks] at found
    split at found
    · next same =>
      obtain ⟨_, _, rfl⟩ := Option.map_eq_some_iff.mp found
      rw [same, update_self]
      exact ⟨rfl, rfl⟩
    · next apart =>
      rw [update_of_ne apart]
      exact arranged.ends one ends found
  · intro one front other back split'
    by_cases same : one = blk
    · subst same
      rw [update_self] at split'
      exact arranged.placed_splice split splices split'
    · -- Instructions of other blocks keep their places.
      rw [update_of_ne same] at split'
      have mem : other ∈ cs one := by simp [split']
      have outside : other ∉ cs blk := fun mem' => same (arranged.block_unique mem mem')
      rw [split] at outside
      simp only [mem_append, not_or, Option.mem_toList] at outside
      rw [splices.place_eq (fun isPut => arranged.absent (splices.fresh other isPut) one mem)
        outside.2.1 (fun isLast => outside.1 (mem_of_mem_getLast? isLast))
        (fun isFirst => outside.2.2 (mem_of_mem_head? isFirst)),
        arranged.placed one front other back split']
  · intro other place found
    rw [splices.places] at found
    split at found
    · next isPut =>
      cases found
      simp [isPut]
    · split at found
      · cases found
      · next notTaken =>
        obtain ⟨old, wasFound, rfl⟩ := Option.map_eq_some_iff.mp found
        have mem := arranged.listed other old wasFound
        by_cases same : old.block = blk
        · rw [same, split] at mem
          show other ∈ update cs blk _ old.block
          rw [same, update_self]
          simp only [mem_append, Option.mem_toList] at mem ⊢
          exact mem.imp_right fun late => .inr (late.resolve_left notTaken)
        · show other ∈ update cs blk _ old.block
          rwa [update_of_ne same]
  · intro one
    by_cases same : one = blk
    · subst same
      rw [update_self]
      exact arranged.nodup_splice split splices
    · rw [update_of_ne same]
      exact arranged.nodup one
  · intro one filled
    rw [splices.blocks]
    split
    · next same =>
      obtain ⟨_, found⟩ := splices.known
      rw [same, found]
      exact ⟨_, rfl⟩
    · next apart =>
      rw [update_of_ne apart] at filled
      exact arranged.known one filled

end

end Arranged

/-! ### Links to a neighbour -/

/-- Changes the place of a neighbour, or the ends of the block if there is none. -/
def relink (layout : Layout) (neighbour : Option InstructionId) (blk : BlockId)
    (onPlace : Place → Place) (onEnds : BlockEnds → BlockEnds) : Except Breach Layout := do
  match neighbour with
  | some k =>
    let places ← layout.places.update k onPlace
    return { layout with places := places }
  | none =>
    let blocks ← layout.blocks.update blk onEnds
    return { layout with blocks := blocks }

theorem closeBefore_eq (place : Place) : layout.closeBefore place =
    layout.relink place.prev place.block (fun one => { one with next := place.next })
      fun ends => { ends with first := place.next } := by
  unfold closeBefore relink
  cases place.prev <;> rfl

theorem closeAfter_eq (place : Place) : layout.closeAfter place =
    layout.relink place.next place.block (fun other => { other with prev := place.prev })
      fun ends => { ends with last := place.prev } := by
  unfold closeAfter relink
  cases place.next <;> rfl

/-- Adds an instruction at one side of another. -/
def insertBeside (layout : Layout) (k anchor : InstructionId)
    (neighbour : Place → Option InstructionId) (inserted : Place → Place)
    (onAnchor onNeighbour : Place → Place) (onEnds : BlockEnds → BlockEnds) :
    Except Breach Layout := do
  if layout.contains k then
    throw .instructionPlacedTwice
  let place ← layout.places.get anchor
  let relinked ← relink { layout with places := layout.places.modify anchor onAnchor }
    (neighbour place) place.block onNeighbour onEnds
  return { relinked with places := relinked.places.insert k (inserted place) }

theorem insertBefore_eq : layout.insertBefore k anchor =
    layout.insertBeside k anchor Place.prev (fun place => ⟨place.prev, some anchor, place.block⟩)
      (fun place => { place with prev := some k }) (fun place => { place with next := some k })
      fun ends => { ends with first := some k } := by
  unfold insertBefore insertBeside relink
  split
  · rfl
  · refine bind_congr fun ⟨prev, next, blk⟩ => ?_
    cases prev <;> simp only [bind_assoc, pure_bind]

theorem insertAfter_eq : layout.insertAfter k anchor =
    layout.insertBeside k anchor Place.next (fun place => ⟨some anchor, place.next, place.block⟩)
      (fun place => { place with next := some k }) (fun place => { place with prev := some k })
      fun ends => { ends with last := some k } := by
  unfold insertAfter insertBeside relink
  split
  · rfl
  · refine bind_congr fun ⟨prev, next, blk⟩ => ?_
    cases next <;> simp only [bind_assoc, pure_bind]

section

variable {neighbour : Option InstructionId} {neighbours : Place → Option InstructionId}
  {inserted onAnchor onPlace : Place → Place} {onEnds : BlockEnds → BlockEnds}

theorem relink_eq_ok (relinks : layout.relink neighbour blk onPlace onEnds = .ok ch) :
    (∀ one, ch.places.get? one = if neighbour = some one then
      (layout.places.get? one).map onPlace else layout.places.get? one) ∧
    (∀ one, ch.blocks.get? one = if neighbour = none ∧ one = blk then
      (layout.blocks.get? one).map onEnds else layout.blocks.get? one) ∧
    ch.entry = layout.entry ∧ ch.exit = layout.exit := by
  unfold relink at relinks
  cases neighbour with
  | none =>
    obtain ⟨blocks, updated, relinks⟩ := except_bind_eq_ok.mp relinks
    obtain ⟨_, rfl⟩ := SideTable.update_eq_ok.mp updated
    obtain rfl := except_pure_eq_ok.mp relinks
    exact ⟨fun one => by simp, fun one => by simp [get?_modify], rfl, rfl⟩
  | some neighbour =>
    obtain ⟨places, updated, relinks⟩ := except_bind_eq_ok.mp relinks
    obtain ⟨_, rfl⟩ := SideTable.update_eq_ok.mp updated
    obtain rfl := except_pure_eq_ok.mp relinks
    exact ⟨fun one => by simp [get?_modify, eq_comm], fun one => by simp, rfl, rfl⟩

theorem insertBeside_eq_ok :
    layout.insertBeside k anchor neighbours inserted onAnchor onPlace onEnds = .ok ch ↔
      layout.places.get? k = none ∧ ∃ place relinked, layout.places.get? anchor = some place ∧
        relink { layout with places := layout.places.modify anchor onAnchor } (neighbours place)
          place.block onPlace onEnds = .ok relinked ∧
        ch = { relinked with places := relinked.places.insert k (inserted place) } := by
  unfold insertBeside
  rw [except_unless_throw_eq_ok, contains, not_contains]
  simp only [except_bind_eq_ok, except_pure_eq_ok, get_eq_ok, exists_and_left, @eq_comm _ ch]

end

/-! ### The operations that put an instruction into a block -/

section

variable (arranged : layout.Arranged order cs)

include arranged

theorem append_inserts (appends : layout.append k blk = .ok ch) :
    layout.Splices ch blk (cs blk) none (some k) [] := by
  unfold Layout.append at appends
  obtain ⟨notContained, appends⟩ := except_unless_throw_eq_ok.mp appends
  have fresh := SideTable.not_contains.mp notContained
  obtain ⟨ends, found, appends⟩ := except_bind_eq_ok.mp appends
  have found := SideTable.get_eq_ok.mp found
  obtain ⟨isFirst, isLast⟩ := arranged.ends blk ends found
  obtain ⟨places, linked, rfl⟩ : ∃ places : SideTable .instruction Place,
      (∀ one, places.get? one = if ends.last = some one then
        (layout.places.get? one).map fun place => { place with next := some k }
        else layout.places.get? one) ∧
      ch = { layout with
        blocks := layout.blocks.insert blk
          { ends with first := ends.first <|> some k, last := some k }
        places := places.insert k ⟨ends.last, none, blk⟩ } := by
    cases ended : ends.last with
    | none =>
      simp only [ended, pure_bind, except_pure_eq_ok] at appends
      exact ⟨_, fun one => by simp, appends.symm⟩
    | some last =>
      simp only [ended] at appends
      obtain ⟨places, updated, appends⟩ := except_bind_eq_ok.mp appends
      obtain ⟨_, rfl⟩ := SideTable.update_eq_ok.mp updated
      exact ⟨_, fun one => by simp [get?_modify, eq_comm], (except_pure_eq_ok.mp appends).symm⟩
  refine ⟨by rintro _ ⟨⟩; exact fresh, fun one => ?_, fun one => ?_, ⟨ends, found⟩, rfl, rfl⟩
  · rw [get?_insert, linked, isLast]
    rcases layout.places.get? one with _ | ⟨prev, next, block⟩ <;> grind
  · rw [get?_insert]
    split
    · next same =>
      show _ = Option.map (fun ends : BlockEnds =>
        { ends with first := (cs blk ++ [k]).head?, last := (cs blk ++ [k]).getLast? }) _
      rw [same, found, isFirst, getLast?_concat, Option.map_some]
      cases cs blk <;> rfl
    · rfl

/-- The ends of a block are those of its new list, whether there is a neighbour that is linked or
an end that moves. -/
theorem Arranged.get?_relinked {neighbour : Option InstructionId} {onEnds : BlockEnds → BlockEnds}
    {found : Option BlockEnds}
    (relinked : found = if neighbour = none ∧ other = blk then
      (layout.blocks.get? other).map onEnds else layout.blocks.get? other)
    (ended : ∀ ends, ends.first = (cs blk).head? → ends.last = (cs blk).getLast? →
      (if neighbour = none then onEnds ends else ends) =
        { ends with first := list.head?, last := list.getLast? }) :
    found = if other = blk then (layout.blocks.get? other).map fun ends =>
        { ends with first := list.head?, last := list.getLast? }
      else layout.blocks.get? other := by
  rw [relinked]
  by_cases same : other = blk
  · subst same
    cases isEnds : layout.blocks.get? other with
    | none => simp
    | some ends =>
      obtain ⟨isFirst, isLast⟩ := arranged.ends other ends isEnds
      have both := ended ends isFirst isLast
      by_cases free : neighbour = none
      · rw [if_pos free] at both
        rw [if_pos ⟨free, rfl⟩, if_pos rfl, Option.map_some, both, Option.map_some]
      · rw [if_neg free] at both
        rw [if_neg fun held => free held.1, if_pos rfl, Option.map_some, ← both]
  · simp [same]

theorem insertBefore_inserts (split : cs blk = pre ++ anchor :: post)
    (inserted : layout.insertBefore k anchor = .ok ch) :
    layout.Splices ch blk pre none (some k) (anchor :: post) := by
  rw [insertBefore_eq, insertBeside_eq_ok] at inserted
  obtain ⟨fresh, place, relinked, found, relinks, rfl⟩ := inserted
  cases found.symm.trans (arranged.placed blk pre anchor post split)
  obtain ⟨places, blocks, entry, exit⟩ := relink_eq_ok relinks
  have distinct := arranged.nodup blk
  rw [split] at distinct
  have apart : pre.getLast? ≠ some anchor := fun isLast => (nodup_append.mp distinct).2.2 anchor
    (mem_of_mem_getLast? isLast) anchor mem_cons_self rfl
  refine ⟨by rintro _ ⟨⟩; exact fresh, fun one => ?_, fun one => ?_,
    arranged.known blk (by simp [split]), entry, exit⟩
  · rw [get?_insert, places, get?_modify, head?_cons]
    rcases layout.places.get? one with _ | ⟨prev, next, block⟩ <;> grind
  · refine arranged.get?_relinked (blocks one) fun ends isFirst isLast => ?_
    obtain ⟨next, first, last⟩ := ends
    obtain ⟨rfl, rfl⟩ : first = _ ∧ last = _ := ⟨isFirst, isLast⟩
    rw [split, getLast?_append_of_ne_nil _ (by simp), getLast?_append_of_ne_nil _ (by simp)]
    cases pre <;> simp [getLast?_cons_cons]

theorem insertAfter_inserts (split : cs blk = pre ++ anchor :: post)
    (inserted : layout.insertAfter k anchor = .ok ch) :
    layout.Splices ch blk (pre ++ [anchor]) none (some k) post := by
  rw [insertAfter_eq, insertBeside_eq_ok] at inserted
  obtain ⟨fresh, place, relinked, found, relinks, rfl⟩ := inserted
  cases found.symm.trans (arranged.placed blk pre anchor post split)
  obtain ⟨places, blocks, entry, exit⟩ := relink_eq_ok relinks
  have distinct := arranged.nodup blk
  rw [split] at distinct
  have apart : post.head? ≠ some anchor := fun isFirst =>
    (nodup_cons.mp (nodup_append.mp distinct).2.1).1 (mem_of_mem_head? isFirst)
  refine ⟨by rintro _ ⟨⟩; exact fresh, fun one => ?_, fun one => ?_,
    arranged.known blk (by simp [split]), entry, exit⟩
  · rw [get?_insert, places, get?_modify, getLast?_concat]
    rcases layout.places.get? one with _ | ⟨prev, next, block⟩ <;> grind
  · refine arranged.get?_relinked (blocks one) fun ends isFirst isLast => ?_
    obtain ⟨next, first, last⟩ := ends
    obtain ⟨rfl, rfl⟩ : first = _ ∧ last = _ := ⟨isFirst, isLast⟩
    rw [split, getLast?_append_of_ne_nil _ (by simp), getLast?_append_of_ne_nil _ (by simp)]
    cases pre <;> cases post <;> simp [getLast?_cons_cons]

theorem prepend_inserts (prepended : layout.prepend k blk = .ok ch) :
    layout.Splices ch blk [] none (some k) (cs blk) := by
  unfold prepend at prepended
  obtain ⟨first, found, prepended⟩ := except_bind_eq_ok.mp prepended
  obtain ⟨_, rfl⟩ := arranged.firstOf_eq.mp found
  cases listed : cs blk with
  | nil =>
    simp only [listed] at prepended
    have inserts := append_inserts arranged prepended
    rwa [listed] at inserts
  | cons head rest =>
    simp only [listed] at prepended
    exact insertBefore_inserts arranged (listed.trans (nil_append _).symm) prepended

end

/-- The last block leads on to the new one, before that one is entered. -/
theorem appendBlock_eq_ok (appends : layout.appendBlock blk = .ok ch) :
    layout.blocks.get? blk = none ∧ ∃ blocks : SideTable .block BlockEnds,
      (∀ one, blocks.get? one = if layout.exit = some one then
        (layout.blocks.get? one).map fun ends => { ends with next := some blk }
        else layout.blocks.get? one) ∧
      ch = { layout with
        blocks := blocks.insert blk ⟨none, none, none⟩
        entry := layout.entry <|> some blk
        exit := some blk } := by
  unfold appendBlock at appends
  obtain ⟨notContained, appends⟩ := except_unless_throw_eq_ok.mp appends
  refine ⟨SideTable.not_contains.mp notContained, ?_⟩
  cases ended : layout.exit with
  | none =>
    simp only [ended, pure_bind] at appends
    rw [except_pure_eq_ok] at appends
    exact ⟨layout.blocks, fun one => by rw [if_neg (by simp)], appends.symm⟩
  | some last =>
    simp only [ended] at appends
    obtain ⟨blocks, updated, appends⟩ := except_bind_eq_ok.mp appends
    obtain ⟨_, rfl⟩ := SideTable.update_eq_ok.mp updated
    rw [except_pure_eq_ok] at appends
    refine ⟨_, fun one => ?_, appends.symm⟩
    rw [get?_modify]
    simp only [Option.some_inj, eq_comm]

theorem setAside_eq_ok (sets : layout.setAside blk = .ok ch) : layout.blocks.get? blk = none ∧
      ch = { layout with
        blocks := layout.blocks.insert blk ⟨none, none, none⟩ } := by
  unfold setAside at sets
  obtain ⟨notContained, sets⟩ := except_unless_throw_eq_ok.mp sets
  exact ⟨SideTable.not_contains.mp notContained, (except_pure_eq_ok.mp sets).symm⟩

theorem Arranged.contents_eq_nil (arranged : layout.Arranged order cs)
    (fresh : layout.blocks.get? blk = none) : cs blk = [] := by
  by_contra filled
  obtain ⟨ends, found⟩ := arranged.known blk filled
  cases fresh.symm.trans found

/-! ### The lists after each operation -/

namespace Arranged

section

variable (arranged : layout.Arranged order cs)

include arranged

theorem append (appends : layout.append k blk = .ok ch) :
    ch.Arranged order (update cs blk (cs blk ++ [k])) :=
  arranged.splice (append_nil _).symm (append_inserts arranged appends)

theorem prepend (prepends : layout.prepend k blk = .ok ch) :
    ch.Arranged order (update cs blk (k :: cs blk)) :=
  arranged.splice (nil_append _).symm (prepend_inserts arranged prepends)

theorem insertBefore (split : cs blk = pre ++ anchor :: post)
    (inserted : layout.insertBefore k anchor = .ok ch) : ch.Arranged order
      (update cs blk (pre ++ k :: anchor :: post)) :=
  arranged.splice split (insertBefore_inserts arranged split inserted)

theorem insertAfter (split : cs blk = pre ++ anchor :: post)
    (inserted : layout.insertAfter k anchor = .ok ch) : ch.Arranged order
      (update cs blk (pre ++ anchor :: k :: post)) := by
  have split' : cs blk = (pre ++ [anchor]) ++ post := by
    rw [split, append_assoc, singleton_append]
  have inserted := arranged.splice split' (insertAfter_inserts arranged split inserted)
  rwa [append_assoc, singleton_append] at inserted

theorem setAside (sets : layout.setAside blk = .ok ch) : ch.Arranged order cs := by
  obtain ⟨fresh, rfl⟩ := setAside_eq_ok sets
  have empty := arranged.contents_eq_nil fresh
  refine ⟨arranged.entry, arranged.exit, ?_, arranged.orderNodup, ?_, arranged.placed,
    arranged.listed, arranged.nodup, ?_⟩
  · intro front one back split
    obtain ⟨ends, found, next⟩ := arranged.following front one back split
    refine ⟨ends, ?_, next⟩
    rw [get?_insert, if_neg, found]
    rintro rfl
    rw [fresh] at found
    cases found
  · intro one ends found
    rw [get?_insert] at found
    split at found
    · next same =>
      cases found
      rw [same, empty]
      exact ⟨rfl, rfl⟩
    · exact arranged.ends one ends found
  · intro one filled
    rw [get?_insert]
    split
    · exact ⟨_, rfl⟩
    · exact arranged.known one filled

theorem appendBlock (appends : layout.appendBlock blk = .ok ch) :
    ch.Arranged (order ++ [blk]) cs := by
  obtain ⟨fresh, blocks, relinked, rfl⟩ := appendBlock_eq_ok appends
  rw [arranged.exit] at relinked
  have absent : blk ∉ order := by
    intro mem
    obtain ⟨ends, found⟩ := arranged.mem_order mem
    rw [fresh] at found
    cases found
  have empty := arranged.contents_eq_nil fresh
  refine ⟨?_, ?_, ?_, ?_, ?_, arranged.placed, arranged.listed, arranged.nodup, ?_⟩
  · show (layout.entry <|> some blk) = (order ++ [blk]).head?
    rw [arranged.entry]
    cases order <;> rfl
  · exact getLast?_concat.symm
  · intro front one back split
    rcases append_eq_append_iff.mp split with ⟨part, rfl, shared⟩ | ⟨part, rfl, shared⟩
    · cases part with
      | nil =>
        obtain ⟨rfl, rfl⟩ := List.cons.inj shared
        exact ⟨_, by rw [get?_insert, if_pos rfl], rfl⟩
      | cons first part => simp at shared
    · cases part with
      | nil =>
        obtain ⟨rfl, rfl⟩ := List.cons.inj shared
        exact ⟨_, by rw [get?_insert, if_pos rfl], rfl⟩
      | cons first part =>
        rw [cons_append] at shared
        obtain ⟨rfl, rfl⟩ := List.cons.inj shared
        have apart : one ≠ blk := by
          rintro rfl
          exact absent (by simp)
        obtain ⟨ends, found, next⟩ := arranged.following front one part rfl
        cases part with
        | nil =>
          refine ⟨{ ends with next := some blk }, ?_, rfl⟩
          rw [get?_insert, if_neg apart, relinked, if_pos getLast?_concat, found]
          rfl
        | cons start part =>
          refine ⟨ends, ?_, next⟩
          rw [get?_insert, if_neg apart, relinked, if_neg, found]
          intro isLast
          rw [getLast?_append_of_ne_nil _ (by simp), getLast?_cons_cons] at isLast
          have distinct := (nodup_append.mp arranged.orderNodup).2.1
          exact (nodup_cons.mp distinct).1 (mem_of_mem_getLast? isLast)
  · exact nodup_append.mpr ⟨arranged.orderNodup, nodup_singleton blk,
      fun one mem other isBlock same => by
        rw [mem_singleton] at isBlock
        exact absent (isBlock ▸ same ▸ mem)⟩
  · intro one ends found
    rw [get?_insert] at found
    split at found
    · next same =>
      cases found
      rw [same, empty]
      exact ⟨rfl, rfl⟩
    · rw [relinked] at found
      split at found
      · obtain ⟨old, wasFound, rfl⟩ := Option.map_eq_some_iff.mp found
        exact arranged.ends one old wasFound
      · exact arranged.ends one ends found
  · intro one filled
    obtain ⟨ends, found⟩ := arranged.known one filled
    rw [get?_insert]
    split
    · exact ⟨_, rfl⟩
    · rw [relinked, found]
      split
      · exact ⟨_, rfl⟩
      · exact ⟨_, rfl⟩

end

end Arranged

theorem appendBlock_keeps (appends : layout.appendBlock blk = .ok ch) :
    layout.blocks.get? blk = none ∧ layout.Keeps ch := by
  obtain ⟨fresh, blocks, relinked, rfl⟩ := appendBlock_eq_ok appends
  refine ⟨fresh, fun one ends found => ?_⟩
  rw [get?_insert]
  split
  · exact ⟨_, rfl⟩
  · rw [relinked, found]
    split <;> exact ⟨_, rfl⟩

theorem setAside_keeps (sets : layout.setAside blk = .ok ch) :
    layout.blocks.get? blk = none ∧ layout.Keeps ch ∧ ∃ ends, ch.blocks.get? blk = some ends := by
  obtain ⟨fresh, rfl⟩ := setAside_eq_ok sets
  refine ⟨fresh, fun one ends found => ?_, _, (get?_insert ..).trans (if_pos rfl)⟩
  rw [get?_insert]
  split
  · exact ⟨_, rfl⟩
  · exact ⟨ends, found⟩

/-! ### Taking an instruction out -/

theorem remove_removes (arranged : layout.Arranged order cs) (split : cs blk = pre ++ k :: post)
    (removed : layout.remove k = .ok ch) : layout.Splices ch blk pre (some k) none post := by
  unfold remove at removed
  rw [arranged.placed blk pre k post split] at removed
  obtain ⟨mid, closes, closes'⟩ := except_bind_eq_ok.mp removed
  rw [closeBefore_eq] at closes
  rw [closeAfter_eq] at closes'
  obtain ⟨places, blocks, entry, exit⟩ := relink_eq_ok closes
  obtain ⟨places', blocks', entry', exit'⟩ := relink_eq_ok closes'
  simp only at places blocks places' blocks'
  have distinct := arranged.nodup blk
  rw [split] at distinct
  obtain ⟨_, distinctRest, apart⟩ := nodup_append.mp distinct
  have notLast : pre.getLast? ≠ some k := fun isLast =>
    apart k (mem_of_mem_getLast? isLast) k mem_cons_self rfl
  have notFirst : post.head? ≠ some k := fun isFirst =>
    (nodup_cons.mp distinctRest).1 (mem_of_mem_head? isFirst)
  have notBoth : ∀ one, pre.getLast? = some one → post.head? ≠ some one :=
    fun one isLast isFirst => apart one (mem_of_mem_getLast? isLast) one
      (mem_cons_of_mem _ (mem_of_mem_head? isFirst)) rfl
  refine ⟨nofun, fun one => ?_, fun one => ?_, arranged.known blk (by simp [split]),
    entry'.trans entry, exit'.trans exit⟩
  · rw [places', places, get?_erase]
    rcases layout.places.get? one with _ | ⟨prev, next, block⟩ <;> grind
  · rw [blocks', blocks]
    by_cases same : one = blk
    · subst same
      cases isEnds : layout.blocks.get? one with
      | none => simp
      | some ends =>
        obtain ⟨isFirst, isLast⟩ := arranged.ends one ends isEnds
        obtain ⟨next, first, last⟩ := ends
        simp only [split] at isFirst isLast
        subst isFirst isLast
        cases pre using reverseRecOn <;> cases post <;>
          simp [head?_append, getLast?_append, getLast?_cons_cons]
    · simp [same]

theorem Arranged.remove (arranged : layout.Arranged order cs) (split : cs blk = pre ++ k :: post)
    (removed : layout.remove k = .ok ch) : ch.Arranged order (update cs blk (pre ++ post)) :=
  arranged.splice split (remove_removes arranged split removed)

end Layout

end RegisterChains

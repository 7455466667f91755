/-
This file proves that a layout refines plain lists. Every call that places or takes out a block or
an instruction is given a second meaning, on the list of blocks and a list of instructions for each
block. A layout goes through the same calls as the lists: it refuses what has no meaning on lists,
and what it is asked about the rest is what the lists say.
-/

import RegisterChains.Proofs.Program.Fullness

namespace RegisterChains

open Function Layout List SideTable

namespace Layout

/-- A call that changes a layout. -/
inductive Change where
  | appendBlock (block : BlockId)
  | setAside (block : BlockId)
  | append (key : InstructionId) (block : BlockId)
  | prepend (key : InstructionId) (block : BlockId)
  | insertBefore (key anchor : InstructionId)
  | insertAfter (key anchor : InstructionId)
  | remove (key : InstructionId)

def perform (layout : Layout) : Change → Except Breach Layout
  | .appendBlock blk => layout.appendBlock blk
  | .setAside blk => layout.setAside blk
  | .append k blk => layout.append k blk
  | .prepend k blk => layout.prepend k blk
  | .insertBefore k anchor => layout.insertBefore k anchor
  | .insertAfter k anchor => layout.insertAfter k anchor
  | .remove k => layout.remove k

/-! ### Calls on plain lists -/

/-- The blocks in order, those that are set aside, and the instructions of each. -/
structure Lists where
  order : List BlockId
  aside : List BlockId
  contents : BlockId → List InstructionId

namespace Lists

def empty : Lists := ⟨[], [], fun _ => []⟩

def has (lists : Lists) (blk : BlockId) : Bool :=
  lists.order.contains blk || lists.aside.contains blk

/-- The block that lists an instruction. -/
def blockOf (lists : Lists) (k : InstructionId) : Option BlockId :=
  (lists.order ++ lists.aside).find? fun blk => (lists.contents blk).contains k

def edit (lists : Lists) (blk : BlockId) (change : List InstructionId → List InstructionId) :
    Lists :=
  { lists with contents := update lists.contents blk (change (lists.contents blk)) }

/-- The block whose list a call changes. -/
def target (lists : Lists) : Change → Option BlockId
  | .appendBlock _ | .setAside _ => none
  | .append _ blk | .prepend _ blk => if lists.has blk then some blk else none
  | .insertBefore _ anchor | .insertAfter _ anchor => lists.blockOf anchor
  | .remove k => lists.blockOf k

/-- What a call does to the list of its block. -/
def rewrite (list : List InstructionId) : Change → List InstructionId
  | .appendBlock _ | .setAside _ => list
  | .append k _ => list ++ [k]
  | .prepend k _ => k :: list
  | .insertBefore k anchor => list.insertIdx (list.idxOf anchor) k
  | .insertAfter k anchor => list.insertIdx (list.idxOf anchor + 1) k
  | .remove k => list.erase k

/-- The instruction that a call places. -/
def placed : Change → Option InstructionId
  | .append k _ | .prepend k _ | .insertBefore k _ | .insertAfter k _ => some k
  | .appendBlock _ | .setAside _ | .remove _ => none

def place (lists : Lists) (change : Change) : Option Lists :=
  if (placed change).any fun k => (lists.blockOf k).isSome then none
  else (lists.target change).map fun blk => lists.edit blk (rewrite · change)

/-- A call on lists. It has no meaning if a block or an instruction would be there twice, or if what
it refers to is not there. -/
def perform (lists : Lists) (change : Change) : Option Lists :=
  match change with
  | .appendBlock blk =>
    if lists.has blk then none else some { lists with order := lists.order ++ [blk] }
  | .setAside blk =>
    if lists.has blk then none else some { lists with aside := lists.aside ++ [blk] }
  | .append .. | .prepend .. | .insertBefore .. | .insertAfter .. | .remove .. => lists.place change

theorem insertIdx_length_append (k : InstructionId) (pre post : List InstructionId) :
    (pre ++ post).insertIdx pre.length k = pre ++ k :: post := by
  induction pre with
  | nil => exact insertIdx_zero
  | cons first rest ih => exact congrArg (first :: ·) ih

theorem place_eq_some {lists next : Lists} {change : Change} : lists.place change = some next ↔
    (∀ k, placed change = some k → lists.blockOf k = none) ∧
      ∃ blk, lists.target change = some blk ∧ lists.edit blk (rewrite · change) = next := by
  unfold place
  cases placed change with
  | none => simp
  | some k => cases lists.blockOf k <;> simp

end Lists

/-- What a layout answers is what the lists say. The walks over the links end: a budget of the
length of the list is enough. -/
structure Reads (layout : Layout) (lists : Lists) : Prop where
  walk : ∀ budget, lists.order.length ≤ budget → layout.blocksFrom budget layout.entry = lists.order
  blockList : layout.blockList = lists.order
  instructions : ∀ block, lists.has block = true →
    layout.instructionsOf block = .ok (lists.contents block)
  walks : ∀ block budget, (lists.contents block).length ≤ budget →
    layout.instructionsFrom budget (lists.contents block).head? = lists.contents block
  first : ∀ block, lists.has block = true → layout.firstOf block = .ok (lists.contents block).head?
  last : ∀ block, lists.has block = true → layout.lastOf block = .ok (lists.contents block).getLast?
  neighbours : ∀ block before key behind, lists.contents block = before ++ key :: behind →
    layout.prevOf key = .ok before.getLast? ∧ layout.nextOf key = .ok behind.head? ∧
      layout.blockOf key = .ok block
  contains : ∀ key, layout.contains key = true ↔
    ∃ block, lists.has block = true ∧ key ∈ lists.contents block
  unique : ∀ key block other, key ∈ lists.contents block → key ∈ lists.contents other →
    block = other
  nodup : ∀ block, (lists.contents block).Nodup

variable {layout ch : Layout} {lists next : Lists} {change : Change} {blk : BlockId}
  {k anchor : InstructionId}

/-- The links of a layout describe the lists, and it has the blocks of the lists. -/
structure Describes (layout : Layout) (lists : Lists) : Prop
    extends layout.Arranged lists.order lists.contents where
  has : ∀ block, (layout.blocks.get? block).isSome = lists.has block

theorem describes_empty : empty.Describes .empty := ⟨arranged_empty, fun _ => rfl⟩

/-! ### What a layout answers -/

namespace Describes

section

variable (describes : layout.Describes lists) {post pre : List InstructionId}

include describes

theorem has_iff : lists.has blk = true ↔ ∃ ends, layout.blocks.get? blk = some ends := by
  rw [← describes.has, Option.isSome_iff_exists]

theorem has_of_mem (mem : k ∈ lists.contents blk) : lists.has blk = true :=
  describes.has_iff.mpr (describes.known blk (ne_nil_of_mem mem))

theorem blockOf_eq_some : lists.blockOf k = some blk ↔ k ∈ lists.contents blk := by
  have places : ∀ {blk}, lists.blockOf k = some blk → k ∈ lists.contents blk :=
    fun found => by simpa using find?_some found
  refine ⟨places, fun mem => ?_⟩
  have has : blk ∈ lists.order ++ lists.aside := by
    simpa [Lists.has] using describes.has_of_mem mem
  have listed : (lists.blockOf k).isSome := find?_isSome.mpr ⟨blk, has, by simpa using mem⟩
  obtain ⟨one, found⟩ := Option.isSome_iff_exists.mp listed
  rw [found, describes.block_unique mem (places found)]

theorem blockOf_eq_none : lists.blockOf k = none ↔ layout.places.get? k = none := by
  rw [Option.eq_none_iff_forall_ne_some, Option.eq_none_iff_forall_ne_some]
  constructor
  · intro absent place found
    exact absent _ (describes.blockOf_eq_some.mpr (describes.listed k place found))
  · intro fresh blk found
    obtain ⟨place, placed, _⟩ := describes.place_of_mem (describes.blockOf_eq_some.mp found)
    exact fresh place placed

theorem exists_split (found : lists.blockOf k = some blk) :
    ∃ pre post, lists.contents blk = pre ++ k :: post ∧ k ∉ pre := by
  obtain ⟨pre, post, split⟩ := append_of_mem (describes.blockOf_eq_some.mp found)
  have distinct := describes.nodup blk
  rw [split] at distinct
  exact ⟨pre, post, split, fun mem =>
    (nodup_append.mp distinct).2.2 k mem k mem_cons_self rfl⟩

theorem place_eq (split : lists.contents blk = pre ++ k :: post) :
    layout.places.get k = .ok ⟨pre.getLast?, post.head?, blk⟩ :=
  SideTable.get_eq_ok.mpr (describes.placed blk pre k post split)

theorem reads : layout.Reads lists where
  walk budget enough := by
    rw [describes.entry]
    exact describes.blocksFrom_eq (nil_append _).symm enough
  blockList := describes.blockList_eq
  instructions blk has := describes.instructionsOf_eq.mpr ⟨describes.has_iff.mp has, rfl⟩
  walks blk budget enough := describes.instructionsFrom_eq (nil_append _).symm enough
  first blk has := describes.firstOf_eq.mpr ⟨describes.has_iff.mp has, rfl⟩
  last blk has := by
    obtain ⟨ends, found⟩ := describes.has_iff.mp has
    rw [lastOf, SideTable.get_eq_ok.mpr found, ← (describes.ends blk ends found).2]
    rfl
  neighbours blk pre k post split := by
    unfold prevOf nextOf blockOf
    rw [describes.place_eq split]
    exact ⟨rfl, rfl, rfl⟩
  contains k := by
    rw [← not_iff_not, contains, SideTable.not_contains, ← describes.blockOf_eq_none,
      Option.eq_none_iff_forall_ne_some]
    constructor
    · rintro absent ⟨blk, _, mem⟩
      exact absent blk (describes.blockOf_eq_some.mpr mem)
    · intro absent blk found
      have mem := describes.blockOf_eq_some.mp found
      exact absent ⟨blk, describes.has_of_mem mem, mem⟩
  unique _ _ _ := describes.block_unique
  nodup := describes.nodup

/-! ### One call -/

theorem edit {taken put : Option InstructionId} {list : List InstructionId}
    {rewrite : List InstructionId → List InstructionId}
    (splices : layout.Splices ch blk pre taken put post)
    (arranged : ch.Arranged lists.order (update lists.contents blk list))
    (rewritten : rewrite (lists.contents blk) = list) : ch.Describes (lists.edit blk rewrite) := by
  refine ⟨by rwa [Lists.edit, rewritten], fun one => ?_⟩
  have same := describes.has one
  rw [splices.blocks]
  split
  · rwa [Option.isSome_map]
  · exact same

section

variable (absent : lists.has blk = false)

include absent

theorem not_contains_of_has : ¬ layout.blocks.contains blk = true := by
  rw [SideTable.contains, describes.has, absent]
  exact Bool.false_ne_true

theorem exists_appendBlock : ∃ ch, layout.appendBlock blk = .ok ch := by
  have new := describes.not_contains_of_has absent
  unfold appendBlock
  cases ended : layout.exit with
  | none => exact exists_unless_throw_eq_ok new ⟨_, rfl⟩
  | some last =>
    obtain ⟨ends, found⟩ :=
      describes.mem_order (mem_of_mem_getLast? (describes.exit.symm.trans ended))
    obtain ⟨blocks, updated⟩ := exists_update found fun ends => { ends with next := some blk }
    exact exists_unless_throw_eq_ok new (exists_bind_eq_ok updated ⟨_, rfl⟩)

theorem exists_setAside : ∃ ch, layout.setAside blk = .ok ch := by
  have new := describes.not_contains_of_has absent
  unfold setAside
  exact exists_unless_throw_eq_ok new ⟨_, rfl⟩

end

/-- A layout does not refuse a call that has a meaning on lists. -/
theorem exists_perform (performed : lists.perform change = some next) :
    ∃ ch, layout.perform change = .ok ch := by
  cases change with
  | appendBlock blk =>
    refine describes.exists_appendBlock (Bool.eq_false_iff.mpr fun has => ?_)
    simp [Lists.perform, has] at performed
  | setAside blk =>
    refine describes.exists_setAside (Bool.eq_false_iff.mpr fun has => ?_)
    simp [Lists.perform, has] at performed
  | append k blk | prepend k blk =>
    obtain ⟨fresh, other, isTarget, _⟩ := Lists.place_eq_some.mp performed
    obtain ⟨has, _⟩ := Option.ite_none_right_eq_some.mp isTarget
    have known := describes.has_iff.mp has
    have fresh := describes.blockOf_eq_none.mp (fresh k rfl)
    first
      | exact describes.exists_append known fresh
      | exact describes.exists_prepend known fresh
  | insertBefore k anchor | insertAfter k anchor =>
    obtain ⟨fresh, blk, isTarget, _⟩ := Lists.place_eq_some.mp performed
    obtain ⟨pre, post, split, _⟩ := describes.exists_split isTarget
    have fresh := describes.blockOf_eq_none.mp (fresh k rfl)
    first
      | exact describes.exists_insertBefore split fresh
      | exact describes.exists_insertAfter split fresh
  | remove k =>
    obtain ⟨_, blk, isTarget, _⟩ := Lists.place_eq_some.mp performed
    obtain ⟨pre, post, split, _⟩ := describes.exists_split isTarget
    exact describes.exists_remove split

/-- What is put beside another instruction has no place before, and the other one has one. -/
theorem anchored {neighbours : Place → Option InstructionId}
    {inserted onAnchor onPlace : Place → Place} {onEnds : BlockEnds → BlockEnds}
    (inserts : layout.insertBeside k anchor neighbours inserted onAnchor onPlace onEnds = .ok ch) :
    layout.places.get? k = none ∧ ∃ blk, lists.blockOf anchor = some blk := by
  obtain ⟨fresh, place, _, found, _⟩ := insertBeside_eq_ok.mp inserts
  exact ⟨fresh, _, describes.blockOf_eq_some.mpr (describes.listed anchor place found)⟩

theorem perform_place {blk : BlockId}
    (fresh : ∀ k, Lists.placed change = some k → layout.places.get? k = none)
    (isTarget : lists.target change = some blk) :
    lists.place change = some (lists.edit blk (Lists.rewrite · change)) :=
  Lists.place_eq_some.mpr ⟨fun k isKey => describes.blockOf_eq_none.mpr (fresh k isKey),
    blk, isTarget, rfl⟩

/-- What a layout does not refuse has a meaning on lists, and the layout describes the result. -/
theorem perform (performed : layout.perform change = .ok ch) :
    ∃ next, lists.perform change = some next ∧ ch.Describes next := by
  cases change with
  | appendBlock blk =>
    obtain ⟨fresh, blocks, relinked, rfl⟩ := appendBlock_eq_ok performed
    have absent : lists.has blk = false := by rw [← describes.has, fresh]; rfl
    refine ⟨_, if_neg (Bool.not_eq_true _ ▸ absent), describes.appendBlock performed,
      fun one => ?_⟩
    have same := describes.has one
    rw [get?_insert, relinked]
    grind [Lists.has]
  | setAside blk =>
    obtain ⟨fresh, rfl⟩ := setAside_eq_ok performed
    have absent : lists.has blk = false := by rw [← describes.has, fresh]; rfl
    refine ⟨_, if_neg (Bool.not_eq_true _ ▸ absent), describes.setAside performed, fun one => ?_⟩
    have same := describes.has one
    rw [get?_insert]
    grind [Lists.has]
  | append k blk =>
    have splices := append_inserts describes.toArranged performed
    exact ⟨_, describes.perform_place (by rintro _ ⟨⟩; exact splices.fresh k rfl)
        (if_pos (describes.has_iff.mpr splices.known)),
      describes.edit splices (describes.append performed) rfl⟩
  | prepend k blk =>
    have splices := prepend_inserts describes.toArranged performed
    exact ⟨_, describes.perform_place (by rintro _ ⟨⟩; exact splices.fresh k rfl)
        (if_pos (describes.has_iff.mpr splices.known)),
      describes.edit splices (describes.prepend performed) rfl⟩
  | insertBefore k anchor =>
    -- An anchor is listed once, so the list is split where it is found first.
    obtain ⟨fresh, blk, isTarget⟩ := describes.anchored (insertBefore_eq.symm.trans performed)
    obtain ⟨pre, post, split, absent⟩ := describes.exists_split isTarget
    refine ⟨_, describes.perform_place (by rintro _ ⟨⟩; exact fresh) isTarget,
      describes.edit (insertBefore_inserts describes.toArranged split performed)
        (describes.insertBefore split performed) ?_⟩
    simp [Lists.rewrite, split, idxOf_append_of_notMem absent, Lists.insertIdx_length_append]
  | insertAfter k anchor =>
    obtain ⟨fresh, blk, isTarget⟩ := describes.anchored (insertAfter_eq.symm.trans performed)
    obtain ⟨pre, post, split, absent⟩ := describes.exists_split isTarget
    refine ⟨_, describes.perform_place (by rintro _ ⟨⟩; exact fresh) isTarget,
      describes.edit (insertAfter_inserts describes.toArranged split performed)
        (describes.insertAfter split performed) ?_⟩
    have inserted := Lists.insertIdx_length_append k (pre ++ [anchor]) post
    simpa [Lists.rewrite, split, idxOf_append_of_notMem absent] using inserted
  | remove k =>
    have isTarget : ∃ blk, lists.blockOf k = some blk := by
      refine Option.ne_none_iff_exists'.mp fun absent => ?_
      rw [perform, remove, describes.blockOf_eq_none.mp absent] at performed
      cases performed
    obtain ⟨blk, isTarget⟩ := isTarget
    obtain ⟨pre, post, split, absent⟩ := describes.exists_split isTarget
    refine ⟨_, describes.perform_place (by rintro _ ⟨⟩) isTarget,
      describes.edit (remove_removes describes.toArranged split performed)
        (describes.remove split performed) ?_⟩
    simp [Lists.rewrite, split, erase_append_right _ absent]

end

/-! ### Any number of calls -/

/-- A layout goes through the same calls as the lists that it describes. -/
theorem performAll {changes : List Change} (describes : layout.Describes lists)
    (performed : changes.foldlM Lists.perform lists = some next) :
    ∃ ch, changes.foldlM Layout.perform layout = .ok ch ∧ ch.Describes next := by
  induction changes generalizing layout lists with
  | nil =>
    cases performed
    exact ⟨layout, rfl, describes⟩
  | cons change rest ih =>
    rw [foldlM_cons] at performed
    obtain ⟨mid, one, later⟩ := Option.bind_eq_some_iff.mp performed
    obtain ⟨ch, performs⟩ := describes.exists_perform one
    obtain ⟨_, one', describes⟩ := describes.perform performs
    cases one.symm.trans one'
    obtain ⟨last, performsAll, describes⟩ := ih describes later
    exact ⟨last, foldlM_cons.trans (except_bind_eq_ok.mpr ⟨ch, performs, performsAll⟩), describes⟩

end Describes

/-- A call on lists leaves the lists of the other blocks as they are. -/
theorem Lists.contents_of_perform (performed : lists.perform change = some next) {other : BlockId}
    (apart : lists.target change ≠ some other) : next.contents other = lists.contents other ∧
      (lists.has other = true → next.has other = true) := by
  cases change with
  | appendBlock blk | setAside blk =>
    unfold perform at performed
    obtain ⟨_, ⟨⟩⟩ := Option.ite_none_left_eq_some.mp performed
    refine ⟨rfl, fun known => ?_⟩
    unfold has at known ⊢
    grind
  | append | prepend | insertBefore | insertAfter | remove =>
    obtain ⟨_, blk, isTarget, rfl⟩ := place_eq_some.mp performed
    refine ⟨update_of_ne ?_ .., id⟩
    rintro rfl
    exact apart isTarget

/-- A layout is as good as plain lists. Calls that have a meaning on lists are not refused, and then
the layout answers what the lists say. The next call is refused exactly if it has no meaning on the
lists; otherwise it does to the layout what it does to the lists, and every block but the one that
it is about keeps its list. -/
theorem refines_lists {changes : List Change}
    (performed : changes.foldlM Lists.perform .empty = some lists) :
    ∃ layout, changes.foldlM Layout.perform .empty = .ok layout ∧ layout.Reads lists ∧
      ∀ change, match lists.perform change with
        | none => ∃ breach, layout.perform change = .error breach
        | some next => ∃ changed, layout.perform change = .ok changed ∧ changed.Reads next ∧
          ∀ block, lists.has block = true → lists.target change ≠ some block →
            changed.instructionsOf block = layout.instructionsOf block := by
  obtain ⟨layout, performsAll, describes⟩ := describes_empty.performAll performed
  refine ⟨layout, performsAll, describes.reads, fun change => ?_⟩
  cases one : lists.perform change with
  | none =>
    cases performs : layout.perform change with
    | error breach => exact ⟨breach, rfl⟩
    | ok changed =>
      obtain ⟨next, one', _⟩ := describes.perform performs
      cases one.symm.trans one'
  | some next =>
    obtain ⟨changed, performs⟩ := describes.exists_perform one
    obtain ⟨_, one', describes'⟩ := describes.perform performs
    cases one.symm.trans one'
    refine ⟨changed, performs, describes'.reads, fun block has apart => ?_⟩
    obtain ⟨same, has'⟩ := Lists.contents_of_perform one apart
    rw [describes'.reads.instructions block (has' has), describes.reads.instructions block has,
      same]

/-- The first instruction is taken out and placed again in another block. -/
theorem refines_lists_moving : ∃ layout,
    [.appendBlock ⟨0⟩, .appendBlock ⟨1⟩, .append ⟨0⟩ ⟨0⟩, .append ⟨1⟩ ⟨0⟩, .insertBefore ⟨2⟩ ⟨1⟩,
      .remove ⟨0⟩, .prepend ⟨0⟩ ⟨1⟩, .insertAfter ⟨3⟩ ⟨0⟩].foldlM perform .empty =
        .ok layout ∧
    layout.blockList = [⟨0⟩, ⟨1⟩] ∧ layout.instructionsOf ⟨0⟩ = .ok [⟨2⟩, ⟨1⟩] ∧
    layout.instructionsOf ⟨1⟩ = .ok [⟨0⟩, ⟨3⟩] ∧ layout.blockOf ⟨3⟩ = .ok ⟨1⟩ ∧
    ∃ breach, layout.perform (.append ⟨2⟩ ⟨1⟩) = .error breach := by
  obtain ⟨layout, performsAll, reads, next⟩ := refines_lists (rfl : [.appendBlock ⟨0⟩,
    .appendBlock ⟨1⟩, .append ⟨0⟩ ⟨0⟩, .append ⟨1⟩ ⟨0⟩, .insertBefore ⟨2⟩ ⟨1⟩, .remove ⟨0⟩,
    .prepend ⟨0⟩ ⟨1⟩, .insertAfter ⟨3⟩ ⟨0⟩].foldlM Lists.perform .empty = some _)
  exact ⟨layout, performsAll, reads.blockList, reads.instructions ⟨0⟩ rfl,
    reads.instructions ⟨1⟩ rfl, (reads.neighbours ⟨1⟩ [⟨0⟩] ⟨3⟩ [] rfl).2.2, next (.append ⟨2⟩ ⟨1⟩)⟩

end Layout

end RegisterChains

/-
This file proves that the operations on a program keep the rules. A program that shows its code can
put an instruction at either end of any block that it has and at either side of any instruction that
has a place: the key of a new instruction is new to the layout, and every place that has to change
is there. The one rule that can still be broken is that there are only so many keys, and then the
table of instructions is full.
-/

import RegisterChains.Proofs.Program.Code

namespace RegisterChains

open List SideTable Step

variable {kind : KeyKind}

/-! ### Tables and layouts -/

theorem Arena.exists_insert {α : Type} {arena : Arena kind α} (room : arena.size < kind.capacity)
    (entry : α) : ∃ inserted, arena.insert entry = .ok inserted :=
  exists_bind_eq_ok (Key.ofIndex_eq_ok.mpr ⟨room, rfl⟩) ⟨_, rfl⟩

theorem SideTable.exists_update {α : Type} {table : SideTable kind α} {k : Key kind} {entry : α}
    (found : table.get? k = some entry) (change : α → α) : ∃ ch, table.update k change = .ok ch :=
  ⟨_, SideTable.update_eq_ok.mpr ⟨⟨entry, found⟩, rfl⟩⟩

namespace Layout

variable {layout : Layout} {order : List BlockId} {cs : BlockId → List InstructionId}
  {blk : BlockId} {k anchor : InstructionId} {pre post : List InstructionId}

theorem exists_relink {neighbour : Option InstructionId}
    (placed : ∀ one, neighbour = some one → ∃ entry, layout.places.get? one = some entry)
    (known : ∃ ends, layout.blocks.get? blk = some ends) (onPlace : Place → Place)
    (onEnds : BlockEnds → BlockEnds) :
    ∃ ch, layout.relink neighbour blk onPlace onEnds = .ok ch := by
  cases neighbour with
  | none =>
    obtain ⟨ends, found⟩ := known
    obtain ⟨blocks, updated⟩ := exists_update found onEnds
    exact exists_bind_eq_ok updated ⟨_, rfl⟩
  | some one =>
    obtain ⟨entry, found⟩ := placed one rfl
    obtain ⟨places, updated⟩ := exists_update found onPlace
    exact exists_bind_eq_ok updated ⟨_, rfl⟩

namespace Arranged

section

variable (arranged : layout.Arranged order cs)

include arranged

theorem exists_append (known : ∃ ends, layout.blocks.get? blk = some ends)
    (fresh : layout.places.get? k = none) : ∃ ch, layout.append k blk = .ok ch := by
  obtain ⟨ends, found⟩ := known
  have isLast := (arranged.ends blk ends found).2
  have new : ¬ layout.contains k = true := SideTable.not_contains.mpr fresh
  unfold Layout.append
  cases ended : ends.last with
  | none =>
    refine exists_unless_throw_eq_ok new (exists_bind_eq_ok (SideTable.get_eq_ok.mpr found) ?_)
    simp only [ended]
    exact ⟨_, rfl⟩
  | some last =>
    obtain ⟨place, placed⟩ :=
      arranged.exists_place (mem_of_mem_getLast? (isLast.symm.trans ended))
    obtain ⟨places, updated⟩ := exists_update placed fun place =>
      { place with next := some k }
    refine exists_unless_throw_eq_ok new (exists_bind_eq_ok (SideTable.get_eq_ok.mpr found) ?_)
    simp only [ended]
    exact exists_bind_eq_ok updated ⟨_, rfl⟩

section

variable (split : cs blk = pre ++ anchor :: post)

include split

/-- An instruction can be put beside another if its neighbour at that side has a place. -/
theorem exists_insertBeside {neighbours : Place → Option InstructionId}
    {inserted onAnchor onPlace : Place → Place} {onEnds : BlockEnds → BlockEnds}
    (fresh : layout.places.get? k = none)
    (placed : ∀ one, neighbours ⟨pre.getLast?, post.head?, blk⟩ = some one →
      ∃ place, layout.places.get? one = some place) : ∃ ch,
      layout.insertBeside k anchor neighbours inserted onAnchor onPlace onEnds = .ok ch := by
  have placed' : ∀ one, neighbours ⟨pre.getLast?, post.head?, blk⟩ = some one →
      ∃ place, (layout.places.modify anchor onAnchor).get? one = some place := by
    intro one isOne
    obtain ⟨place, found⟩ := placed one isOne
    rw [get?_modify, found]
    split <;> exact ⟨_, rfl⟩
  obtain ⟨relinked, relinks⟩ := @exists_relink
    { layout with places := layout.places.modify anchor onAnchor } blk _ placed'
    (arranged.known blk (by simp [split])) onPlace onEnds
  exact ⟨_, insertBeside_eq_ok.mpr
    ⟨fresh, _, relinked, arranged.placed blk pre anchor post split, relinks, rfl⟩⟩

theorem exists_insertBefore (fresh : layout.places.get? k = none) :
    ∃ ch, layout.insertBefore k anchor = .ok ch := by
  rw [insertBefore_eq]
  exact arranged.exists_insertBeside split fresh fun _ isLast =>
    arranged.exists_place (split ▸ mem_append_left _ (mem_of_mem_getLast? isLast))

theorem exists_insertAfter (fresh : layout.places.get? k = none) :
    ∃ ch, layout.insertAfter k anchor = .ok ch := by
  rw [insertAfter_eq]
  exact arranged.exists_insertBeside split fresh fun _ isFirst => arranged.exists_place
    (split ▸ mem_append_right _ (mem_cons_of_mem _ (mem_of_mem_head? isFirst)))

end

theorem exists_prepend (known : ∃ ends, layout.blocks.get? blk = some ends)
    (fresh : layout.places.get? k = none) : ∃ ch, layout.prepend k blk = .ok ch := by
  have isFirst := arranged.firstOf_eq.mpr ⟨known, rfl⟩
  unfold Layout.prepend
  cases filled : cs blk with
  | nil =>
    obtain ⟨ch, appends⟩ := arranged.exists_append known fresh
    rw [filled] at isFirst
    exact ⟨ch, except_bind_eq_ok.mpr ⟨none, isFirst, appends⟩⟩
  | cons anchor post =>
    have split : cs blk = [] ++ anchor :: post := filled
    obtain ⟨ch, inserts⟩ := arranged.exists_insertBefore split fresh
    rw [filled] at isFirst
    exact ⟨ch, except_bind_eq_ok.mpr ⟨some anchor, isFirst, inserts⟩⟩

end

end Arranged

theorem Arranged.exists_remove (arranged : layout.Arranged order cs)
    (split : cs blk = pre ++ k :: post) : ∃ ch, layout.remove k = .ok ch := by
  have distinct := arranged.nodup blk
  rw [split] at distinct
  have absent := (nodup_cons.mp (nodup_middle.mp distinct)).1
  obtain ⟨ends, known⟩ := arranged.known blk (by simp [split])
  unfold Layout.remove
  rw [arranged.placed blk pre k post split]
  -- The neighbours are still there when the instruction is gone.
  have kept : ∀ one ∈ pre ++ post, ∃ entry, (layout.places.erase k).get? one = some entry := by
    intro one mem
    have ne : one ≠ k := fun same => absent (same ▸ mem)
    rw [get?_erase, if_neg ne]
    refine arranged.exists_place (?_ : one ∈ cs blk)
    rw [split]
    exact mem_append.mpr ((mem_append.mp mem).imp_right (mem_cons_of_mem k))
  let erased : Layout := { layout with places := layout.places.erase k }
  obtain ⟨mid, closes⟩ : ∃ mid, erased.closeBefore ⟨pre.getLast?, post.head?, blk⟩ = .ok mid := by
    rw [closeBefore_eq]
    exact @exists_relink erased blk _ (fun one isLast =>
      kept one (mem_append_left _ (mem_of_mem_getLast? isLast))) ⟨ends, known⟩ _ _
  obtain ⟨places, blocks, _⟩ := relink_eq_ok (closeBefore_eq _ ▸ closes)
  obtain ⟨ch, closes'⟩ : ∃ ch, mid.closeAfter ⟨pre.getLast?, post.head?, blk⟩ = .ok ch := by
    rw [closeAfter_eq]
    refine exists_relink (fun one isNext => ?_) ?_ _ _
    · obtain ⟨entry, found⟩ := kept one (mem_append_right _ (mem_of_mem_head? isNext))
      have found' : erased.places.get? one = some entry := found
      rw [places, found']
      split <;> exact ⟨_, rfl⟩
    · have known' : erased.blocks.get? blk = some ends := known
      rw [blocks, known']
      split <;> exact ⟨_, rfl⟩
  exact ⟨ch, except_bind_eq_ok.mpr ⟨mid, closes, closes'⟩⟩

end Layout

/-! ### Programs -/

namespace Program

variable {prog : Program} {order : List BlockId} {code : BlockId → List Line}
  {blk : BlockId} {front back : List Line} {k : InstructionId} {inst : Instruction}
  {sequence : List Instruction}

/-- There is no key left for another instruction. -/
def Full (prog : Program) : Prop :=
  KeyKind.instruction.capacity ≤ prog.instructions.size

/-- A key that was just handed out has no place yet. -/
theorem Shows.fresh (shown : prog.Shows order code)
    {instructions : Arena .instruction Instruction}
    (inserted : prog.instructions.insert inst = .ok (k, instructions)) :
    prog.layout.places.get? k = none := by
  obtain ⟨isKey, _⟩ := Arena.insert_eq_ok inserted
  by_contra placed
  obtain ⟨place, found⟩ := Option.ne_none_iff_exists'.mp placed
  obtain ⟨line, mem, rfl⟩ := mem_map.mp (shown.arranged.listed k place found)
  have stored := Arena.index_lt_of_get? (shown.stored _ line mem)
  omega

section

variable (shown : prog.Shows order code)

include shown

/-- An instruction is stored and placed unless the table is full. -/
theorem safe_create_place {placing : InstructionId → Layout → Except Breach Layout}
    (places : ∀ k, prog.layout.places.get? k = none →
      ∃ layout, placing k prog.layout = .ok layout) :
    (create inst >>= fun k => changeLayout (placing k) >>= fun _ =>
      pure k).FailsFor (onBreach Full) prog := by
  refine fails_create_place (fun _ => trivial) (fun cause broken => ?_)
    fun k _ _ inserted broken => ?_
  · by_contra room
    obtain ⟨_, inserted⟩ := Arena.exists_insert (Nat.not_le.mp room) inst
    cases inserted.symm.trans broken
  · obtain ⟨layout, placed⟩ := places k (shown.fresh inserted)
    cases placed.symm.trans broken

theorem safe_push (known : ∃ ends, prog.layout.blocks.get? blk = some ends) :
    (push blk inst).FailsFor (onBreach Full) prog :=
  safe_create_place shown fun _ fresh => shown.arranged.exists_append known fresh

theorem safe_prepend (known : ∃ ends, prog.layout.blocks.get? blk = some ends) :
    (prepend blk inst).FailsFor (onBreach Full) prog :=
  safe_create_place shown fun _ fresh => shown.arranged.exists_prepend known fresh

section

variable {anchor : Line} (split : code blk = front ++ anchor :: back)

include split

theorem safe_insertBefore : (insertBefore anchor.1 inst).FailsFor (onBreach Full) prog :=
  safe_create_place shown fun _ fresh =>
    shown.arranged.exists_insertBefore (split_keys split) fresh

theorem safe_insertAfter : (insertAfter anchor.1 inst).FailsFor (onBreach Full) prog :=
  safe_create_place shown fun _ fresh =>
    shown.arranged.exists_insertAfter (split_keys split) fresh

theorem safe_remove : (remove anchor.1).FailsFor (onBreach Full) prog := by
  obtain ⟨layout, removed⟩ := shown.arranged.exists_remove (split_keys split)
  exact (changeLayout_yields.mpr ⟨layout, removed, rfl⟩).fails

theorem safe_insertAllBefore :
    (insertAllBefore anchor.1 sequence).FailsFor (onBreach Full) prog := by
  induction sequence generalizing prog code front with
  | nil => exact fails_pure
  | cons inst rest ih =>
    refine fails_bind (safe_insertBefore shown split) fun k mid inserts => ?_
    exact fails_bind (ih (shown.insertBefore split inserts) update_split) fun _ _ _ => fails_pure

end

theorem safe_replace (split : code blk = front ++ (k, inst) :: back) :
    (replace k sequence).FailsFor (onBreach Full) prog := by
  refine fails_bind (safe_insertAllBefore shown split) fun _ mid inserts => ?_
  obtain ⟨lines, _, _, _, shown'⟩ := shown.insertAllBefore split inserts
  have split' : Function.update code blk (front ++ lines ++ (k, inst) :: back) blk =
      (front ++ lines) ++ (k, inst) :: back := Function.update_self ..
  have removes := safe_remove shown' split'
  exact fails_bind removes fun _ _ _ => fails_pure

end

end Program

end RegisterChains

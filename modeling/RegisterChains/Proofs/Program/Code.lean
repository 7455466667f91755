/-
This file reads a program as one list of lines for each block. A line is an instruction with
its key. Each operation on a program puts lines into one list, takes one out or changes one,
and leaves all other lists alone.
-/

import RegisterChains.Proofs.Layout
import RegisterChains.Proofs.Program.Building

namespace RegisterChains

open Arena Function Layout List Program Step

/-- An instruction with its key. -/
abbrev Line := InstructionId × Instruction

namespace Program

variable {prog after : Program} {order : List BlockId} {code : BlockId → List Line} {blk : BlockId}
  {front back : List Line} {k : InstructionId} {inst : Instruction} {allowed : Instruction → Prop}

/-- The blocks of the body stand in this order, and the blocks consist of these lines. -/
structure Shows (prog : Program) (order : List BlockId) (code : BlockId → List Line) :
    Prop where
  arranged : prog.layout.Arranged order fun block => (code block).map Prod.fst
  stored : ∀ block, ∀ line ∈ code block, prog.instructions.get? line.1 = some line.2
  aside : ∀ preamble, prog.preamble = some preamble →
    preamble ∉ order ∧ ∃ ends, prog.layout.blocks.get? preamble = some ends

theorem map_fst_update (code : BlockId → List Line) (blk : BlockId) (lines : List Line) :
    (fun one => (update code blk lines one).map Prod.fst) =
      update (fun one => (code one).map Prod.fst) blk (lines.map Prod.fst) := by
  funext one
  exact apply_update (fun _ lines => List.map Prod.fst lines) code blk lines one

theorem split_keys {anchor : Line} (split : code blk = front ++ anchor :: back) :
    (code blk).map Prod.fst = front.map Prod.fst ++ anchor.1 :: back.map Prod.fst := by
  rw [split, map_append, map_cons]

/-- What is put before an instruction is passed over when the next one is put there. -/
theorem update_split {α β : Type} [DecidableEq β] {lists : β → List α} {key : β}
    {front back : List α} {elem : α} :
    update lists key (front ++ elem :: back) key = (front ++ [elem]) ++ back := by
  rw [update_self, append_assoc, singleton_append]

namespace Shows

/-! ### Reading the lists -/

section

variable (shown : prog.Shows order code)

include shown

theorem blocks_eq : prog.blocks = order := shown.arranged.blockList_eq

theorem instruction_eq (mem : (k, inst) ∈ code blk) : prog.instruction k = .ok inst :=
  Arena.get_eq_ok.mpr (shown.stored blk _ mem)

theorem instruction_of_split (split : code blk = front ++ (k, inst) :: back) :
    prog.instruction k = .ok inst :=
  shown.instruction_eq (split ▸ mem_append_cons_self)

theorem instructionsOf_eq (known : ∃ ends, prog.layout.blocks.get? blk = some ends) :
    prog.instructionsOf blk = .ok ((code blk).map Prod.snd) := by
  unfold instructionsOf
  refine except_bind_eq_ok.mpr ⟨_, shown.arranged.instructionsOf_eq.mpr ⟨known, rfl⟩, ?_⟩
  rw [except_mapM_eq_ok, forall₂_map_left_iff, forall₂_map_right_iff, forall₂_same]
  exact fun line mem => shown.instruction_eq mem

theorem instructionsOf_body (mem : blk ∈ order) :
    prog.instructionsOf blk = .ok ((code blk).map Prod.snd) :=
  shown.instructionsOf_eq (shown.arranged.mem_order mem)

theorem instructionsOf_preamble (isPreamble : prog.preamble = some blk) :
    prog.instructionsOf blk = .ok ((code blk).map Prod.snd) :=
  shown.instructionsOf_eq (shown.aside blk isPreamble).2

theorem nextOf_eq (split : code blk = front ++ (k, inst) :: back) :
    prog.layout.nextOf k = .ok (back.head?.map Prod.fst) := by
  rw [← head?_map]
  exact shown.arranged.nextOf_eq (split_keys split)

/-- A key is in one list only, and there only once. -/
theorem key_unique (split : code blk = front ++ (k, inst) :: back) {other : BlockId} {line : Line}
    (mem : line ∈ code other) (same : line.1 = k) : other = blk ∧ line ∉ front ∧ line ∉ back := by
  have isMem : k ∈ (code blk).map Prod.fst := by simp [split]
  have mem' : k ∈ (code other).map Prod.fst := same ▸ mem_map_of_mem mem
  refine ⟨shown.arranged.block_unique mem' isMem, ?_⟩
  have distinct := shown.arranged.nodup blk
  simp only [split, map_append, map_cons] at distinct
  have absent := (nodup_cons.mp (nodup_middle.mp distinct)).1
  rw [mem_append, not_or] at absent
  exact ⟨fun early => absent.1 (same ▸ mem_map_of_mem early),
    fun late => absent.2 (same ▸ mem_map_of_mem late)⟩

end

/-! ### Changing one list -/

section

variable (shown : prog.Shows order code)

include shown

/-- What does not concern blocks and instructions does not concern the lists. -/
theorem congr (layout : after.layout = prog.layout)
    (instructions : after.instructions = prog.instructions)
    (preamble : after.preamble = prog.preamble) : after.Shows order code where
  arranged := layout ▸ shown.arranged
  stored := instructions ▸ shown.stored
  aside := by
    rw [layout, preamble]
    exact shown.aside

theorem allocate {count : Nat} {range : UInt32 × UInt32}
    (ran : (allocate count).Yields prog range after) : after.Shows order code := by
  obtain ⟨_, _, _, _, rfl⟩ := allocate_yields.mp ran
  exact shown.congr rfl rfl rfl

theorem exportRegister (r : Register) : (prog.exportRegister r).Shows order code := by
  unfold Program.exportRegister
  split <;> exact shown.congr rfl rfl rfl

end

/-- Lists that agree with the table but for one block. -/
theorem stored_update {instructions : Arena .instruction Instruction} {lines : List Line}
    (kept : ∀ one, one ≠ blk → ∀ line ∈ code one, instructions.get? line.1 = some line.2)
    (here : ∀ line ∈ lines, instructions.get? line.1 = some line.2) :
    ∀ one, ∀ line ∈ update code blk lines one, instructions.get? line.1 = some line.2 := by
  intro one line mem
  by_cases same : one = blk
  · rw [same, update_self] at mem
    exact here line mem
  · rw [update_of_ne same] at mem
    exact kept one same line mem

section

variable (shown : prog.Shows order code) {anchor : Line} {sequence : List Instruction}
  {keys : List InstructionId}

include shown

/-- An instruction enters the table and one of the lists. -/
theorem adds {placing : Layout → Except Breach Layout}
    (added : prog.Adds after inst k placing) (split : code blk = front ++ back)
    (arranges : ∀ layout, placing prog.layout = .ok layout →
      layout.Arranged order (update (fun one => (code one).map Prod.fst) blk
        ((front ++ (k, inst) :: back).map Prod.fst)) ∧ prog.layout.Keeps layout) :
    after.Shows order (update code blk (front ++ (k, inst) :: back)) := by
  obtain ⟨instructions, layout, inserted, placed, rfl⟩ := added
  obtain ⟨fresh, _, entries⟩ := insert_eq_ok inserted
  obtain ⟨arranged, keeps⟩ := arranges layout placed
  have kept : ∀ one, ∀ line ∈ code one, instructions.get? line.1 = some line.2 := by
    intro one line mem
    have found := shown.stored one line mem
    rw [entries, if_neg, found]
    intro same
    have bound := index_lt_of_get? found
    rw [same, fresh] at bound
    exact absurd bound (Nat.lt_irrefl _)
  refine ⟨by rw [map_fst_update]; exact arranged, ?_, fun preamble isPreamble => ?_⟩
  · refine stored_update (fun one _ => kept one) fun line mem => ?_
    rcases mem_append.mp mem with early | late
    · exact kept blk line (split ▸ mem_append_left back early)
    · rcases mem_cons.mp late with rfl | late
      · exact (entries k).trans (if_pos rfl)
      · exact kept blk line (split ▸ mem_append_right front late)
  · obtain ⟨apart, ends, found⟩ := shown.aside preamble isPreamble
    exact ⟨apart, keeps preamble ends found⟩

theorem push (ran : (push blk inst).Yields prog k after) :
    after.Shows order (update code blk (code blk ++ [(k, inst)])) := by
  refine shown.adds (push_yields ran) (append_nil _).symm fun layout appends => ?_
  rw [map_append]
  exact ⟨shown.arranged.append appends, (append_inserts shown.arranged appends).keeps⟩

theorem append (ran : (append blk inst).Yields prog k after) :
    after.Shows order (update code blk (code blk ++ [(k, inst)])) := by
  obtain ⟨next, _, added⟩ := append_yields ran
  have noted : Shows { prog with nextTemp := next } order code := shown.congr rfl rfl rfl
  refine noted.adds added (append_nil _).symm fun layout appends => ?_
  rw [map_append]
  exact ⟨shown.arranged.append appends, (append_inserts shown.arranged appends).keeps⟩

theorem prepend (ran : (prepend blk inst).Yields prog k after) :
    after.Shows order (update code blk ((k, inst) :: code blk)) := by
  refine shown.adds (prepend_yields ran) (nil_append _).symm fun layout prepends => ?_
  exact ⟨shown.arranged.prepend prepends, (prepend_inserts shown.arranged prepends).keeps⟩

theorem insertBefore (split : code blk = front ++ anchor :: back)
    (ran : (insertBefore anchor.1 inst).Yields prog k after) : after.Shows order
      (update code blk (front ++ (k, inst) :: anchor :: back)) := by
  refine shown.adds (insertBefore_yields ran) split fun layout inserts => ?_
  have split' := split_keys split
  rw [map_append, map_cons, map_cons]
  exact ⟨shown.arranged.insertBefore split' inserts,
    (insertBefore_inserts shown.arranged split' inserts).keeps⟩

theorem insertAfter (split : code blk = front ++ anchor :: back)
    (ran : (insertAfter anchor.1 inst).Yields prog k after) : after.Shows order
      (update code blk (front ++ anchor :: (k, inst) :: back)) := by
  have split' := split_keys split
  have shown' : after.Shows order (update code blk ((front ++ [anchor]) ++ (k, inst) :: back)) := by
    refine shown.adds (insertAfter_yields ran) ?_ fun layout inserts => ?_
    · rw [split, append_assoc, singleton_append]
    · simp only [map_append, map_cons, append_assoc, singleton_append]
      exact ⟨shown.arranged.insertAfter split' inserts,
        (insertAfter_inserts shown.arranged split' inserts).keeps⟩
  rwa [append_assoc, singleton_append] at shown'

theorem remove (split : code blk = front ++ (k, inst) :: back)
    (ran : (remove k).Yields prog () after) :
    after.Shows order (update code blk (front ++ back)) := by
  obtain ⟨layout, removed, rfl⟩ := changeLayout_yields.mp ran
  have split' := split_keys split
  refine ⟨?_, ?_, fun preamble isPreamble => ?_⟩
  · rw [map_fst_update, map_append]
    exact shown.arranged.remove split' removed
  · refine stored_update (fun one _ => shown.stored one) fun line mem => ?_
    refine shown.stored blk line ?_
    rw [split]
    rcases mem_append.mp mem with early | late
    · exact mem_append_left _ early
    · exact mem_append_right _ (mem_cons_of_mem _ late)
  · obtain ⟨apart, ends, found⟩ := shown.aside preamble isPreamble
    exact ⟨apart, (remove_removes shown.arranged split' removed).keeps preamble ends found⟩

theorem setInstruction (ch : Instruction) (split : code blk = front ++ (k, inst) :: back) :
    (setInstruction k ch prog).Shows order (update code blk (front ++ (k, ch) :: back)) := by
  have found : prog.instructions.get? k = some inst :=
    shown.stored blk (k, inst) (by simp [split])
  have kept : ∀ one, ∀ line ∈ code one, line.1 ≠ k →
      (prog.instructions.set k ch).get? line.1 = some line.2 := by
    intro one line mem ne
    rw [get?_set, if_neg ne, shown.stored one line mem]
  refine ⟨?_, ?_, shown.aside⟩
  · have same : (front ++ (k, ch) :: back).map Prod.fst = (code blk).map Prod.fst := by
      rw [split, map_append, map_append, map_cons, map_cons]
    rw [map_fst_update, same, update_eq_self]
    exact shown.arranged
  · refine stored_update (fun one apart line mem => kept one line mem fun same =>
      apart (shown.key_unique split mem same).1) fun line mem => ?_
    have outside : ∀ line, line ∈ front ∨ line ∈ back →
        (prog.instructions.set k ch).get? line.1 = some line.2 := by
      intro line either
      have isMem : line ∈ code blk := by
        rw [split]
        rcases either with early | late
        · exact mem_append_left _ early
        · exact mem_append_right _ (mem_cons_of_mem _ late)
      refine kept blk line isMem fun same => ?_
      obtain ⟨_, notEarly, notLate⟩ := shown.key_unique split isMem same
      exact either.elim notEarly notLate
    rcases mem_append.mp mem with early | late
    · exact outside line (.inl early)
    · rcases mem_cons.mp late with rfl | late
      · refine (get?_set ..).trans ((if_pos rfl).trans ?_)
        rw [found, Option.map_some]
      · exact outside line (.inr late)

theorem insertAllBefore (split : code blk = front ++ anchor :: back)
    (ran : (insertAllBefore anchor.1 sequence).Yields prog keys after) :
    ∃ lines : List Line, lines.map Prod.fst = keys ∧ lines.map Prod.snd = sequence ∧
      (∀ line ∈ lines, prog.instructions.size ≤ line.1.index) ∧
      after.Shows order (update code blk (front ++ lines ++ anchor :: back)) := by
  induction sequence generalizing prog code front keys with
  | nil =>
    obtain ⟨rfl, rfl⟩ := yields_pure.mp ran
    refine ⟨[], rfl, rfl, forall_mem_nil _, ?_⟩
    rw [append_nil, ← split, update_eq_self]
    exact shown
  | cons inst rest ih =>
    obtain ⟨k, mid, inserts, ran⟩ := yields_bind.mp ran
    obtain ⟨others, insertsRest, rfl⟩ := yields_bind_pure.mp ran
    have adds := insertBefore_yields inserts
    obtain ⟨lines, keys, instructions, fresh, last⟩ :=
      ih (shown.insertBefore split inserts) update_split insertsRest
    refine ⟨(k, inst) :: lines, congrArg _ keys, congrArg _ instructions, ?_, ?_⟩
    · exact forall_mem_cons.mpr ⟨adds.index_eq.ge, fun line mem =>
        Nat.le_trans adds.keeps.stored (fresh line mem)⟩
    · rwa [update_idem, append_assoc front, singleton_append] at last

/-- A sequence takes the place of an instruction. -/
theorem replace (split : code blk = front ++ (k, inst) :: back)
    (ran : (replace k sequence).Yields prog keys after) :
    ∃ lines : List Line, lines.map Prod.fst = keys ∧ lines.map Prod.snd = sequence ∧
      (∀ line ∈ lines, prog.instructions.size ≤ line.1.index) ∧
      after.Shows order (update code blk (front ++ lines ++ back)) := by
  obtain ⟨inserted, mid, inserts, ran⟩ := yields_bind.mp ran
  obtain ⟨_, removes, rfl⟩ := yields_bind_pure.mp ran
  obtain ⟨lines, isKeys, instructions, fresh, filled⟩ := shown.insertAllBefore split inserts
  have emptied := filled.remove (update_self ..) removes
  rw [update_idem] at emptied
  exact ⟨lines, isKeys, instructions, fresh, emptied⟩

/-- A change to the instruction with one key, wherever it is. -/
theorem modify (k : InstructionId) (change : Instruction → Instruction) :
    Shows { prog with instructions := prog.instructions.modify k change } order
      fun blk => (code blk).map fun line =>
        (line.1, if line.1 = k then change line.2 else line.2) where
  arranged := by
    simp only [map_map, comp_def]
    exact shown.arranged
  stored blk line mem := by
    obtain ⟨old, isMem, rfl⟩ := mem_map.mp mem
    rw [get?_modify, shown.stored blk old isMem]
    split <;> rfl
  aside := shown.aside

end

/-- A change that makes no difference a second time, to the instructions with some keys. -/
theorem modifyAll (change : Instruction → Instruction)
    (idempotent : ∀ inst, change (change inst) = change inst) (keys : List InstructionId)
    (shown : prog.Shows order code) : Shows { prog with
        instructions := keys.foldl (fun instructions k => instructions.modify k change)
          prog.instructions } order
      fun blk => (code blk).map fun line =>
        (line.1, if line.1 ∈ keys then change line.2 else line.2) := by
  induction keys generalizing prog code with
  | nil => simpa using shown
  | cons k rest ih =>
    have later := ih (shown.modify k change)
    simp only [map_map, comp_def] at later
    have same : ∀ line : Line,
        (if line.1 ∈ rest then change (if line.1 = k then change line.2 else line.2)
          else if line.1 = k then change line.2 else line.2) =
          if line.1 ∈ k :: rest then change line.2 else line.2 := by
      intro line
      by_cases isKey : line.1 = k
      · simp [isKey, idempotent]
      · simp [isKey]
    simp only [same] at later
    exact later

end Shows

/-! ### Programs built from nothing -/

/-- A program that was built from nothing consists of lists of allowed instructions. -/
theorem Built.shows (built : Built allowed prog) :
    ∃ order code, prog.Shows order code ∧ ∀ blk, ∀ line ∈ code blk, allowed line.2 := by
  induction built with
  | empty name =>
    refine ⟨[], fun _ => [], ⟨arranged_empty, ?_, ?_⟩, ?_⟩
    · intro _ _ no
      cases no
    · intro _ no
      cases no
    · intro _ _ no
      cases no
  | addBlock _ ran ih =>
    obtain ⟨order, code, shown, allowed⟩ := ih
    obtain ⟨_, _, _, appends, rfl⟩ := addBlock_yields ran
    obtain ⟨fresh, keeps⟩ := appendBlock_keeps appends
    refine ⟨_, code, ⟨shown.arranged.appendBlock appends, shown.stored, ?_⟩, allowed⟩
    intro preamble isPreamble
    obtain ⟨apart, ends, found⟩ := shown.aside preamble isPreamble
    refine ⟨fun mem => ?_, keeps preamble ends found⟩
    rcases mem_append.mp mem with old | new
    · exact apart old
    · rw [mem_singleton.mp new, fresh] at found
      cases found
  | addPreamble _ ran ih =>
    obtain ⟨order, code, shown, allowed⟩ := ih
    obtain ⟨_, rfl⟩ | ⟨_, _, _, _, sets, rfl⟩ := addPreamble_yields ran
    · exact ⟨order, code, shown, allowed⟩
    · obtain ⟨fresh, _, known⟩ := setAside_keeps sets
      refine ⟨order, code, ⟨shown.arranged.setAside sets, shown.stored, ?_⟩, allowed⟩
      intro preamble isPreamble
      obtain rfl := Option.some_inj.mp isPreamble
      refine ⟨fun mem => ?_, known⟩
      obtain ⟨ends, found⟩ := shown.arranged.mem_order mem
      rw [fresh] at found
      cases found
  | append _ here ran ih =>
    obtain ⟨order, code, shown, allowed⟩ := ih
    refine ⟨order, _, shown.append ran, ?_⟩
    intro one line mem
    rw [update_apply] at mem
    split at mem
    · rcases mem_append.mp mem with old | new
      · exact allowed _ line old
      · rw [mem_singleton.mp new]
        exact here
    · exact allowed one line mem
  | declare _ ran ih =>
    obtain ⟨order, code, shown, allowed⟩ := ih
    obtain ⟨_, _, _, _, rfl⟩ := declare_yields ran
    exact ⟨order, code, shown.congr rfl rfl rfl, allowed⟩
  | exportRegister r _ ih =>
    obtain ⟨order, code, shown, allowed⟩ := ih
    exact ⟨order, code, shown.exportRegister r, allowed⟩
  | markUniform r _ ih =>
    obtain ⟨order, code, shown, allowed⟩ := ih
    refine ⟨order, code, ?_, allowed⟩
    unfold Program.markUniform
    split <;> exact shown.congr rfl rfl rfl
  | limit _ _ _ ih =>
    obtain ⟨order, code, shown, allowed⟩ := ih
    exact ⟨order, code, shown.congr rfl rfl rfl, allowed⟩

/-- Every block of the body has a name. -/
theorem Built.blocks_named (built : Built allowed prog) :
    ∀ blk ∈ prog.blocks, ∃ name, prog.blockNames.get? blk = some name := by
  induction built with
  | empty name =>
    intro _ no
    cases no
  | addBlock pre ran ih =>
    obtain ⟨order, code, shown, _⟩ := pre.shows
    obtain ⟨names, layout, named, appends, rfl⟩ := addBlock_yields ran
    obtain ⟨_, _, entries⟩ := insert_eq_ok named
    intro one mem
    change one ∈ layout.blockList at mem
    rw [(shown.arranged.appendBlock appends).blockList_eq] at mem
    show ∃ name, names.get? one = some name
    rw [entries]
    split
    · exact ⟨_, rfl⟩
    · next apart =>
      rcases mem_append.mp mem with old | new
      · exact ih one (shown.blocks_eq ▸ old)
      · exact absurd (mem_singleton.mp new) apart
  | addPreamble pre ran ih =>
    obtain ⟨order, code, shown, _⟩ := pre.shows
    obtain ⟨_, rfl⟩ | ⟨_, names, layout, named, sets, rfl⟩ := addPreamble_yields ran
    · exact ih
    · obtain ⟨_, _, entries⟩ := insert_eq_ok named
      intro one mem
      change one ∈ layout.blockList at mem
      rw [(shown.arranged.setAside sets).blockList_eq] at mem
      show ∃ name, names.get? one = some name
      rw [entries]
      split
      · exact ⟨_, rfl⟩
      · exact ih one (shown.blocks_eq ▸ mem)
  | append pre _ ran ih =>
    obtain ⟨order, code, shown, _⟩ := pre.shows
    have same := (shown.append ran).blocks_eq.trans shown.blocks_eq.symm
    obtain ⟨_, _, _, _, _, _, rfl⟩ := append_yields ran
    rw [same]
    exact ih
  | declare _ ran ih =>
    obtain ⟨_, _, _, _, rfl⟩ := declare_yields ran
    exact ih
  | exportRegister r _ ih =>
    unfold Program.exportRegister
    split <;> exact ih
  | markUniform r _ ih =>
    unfold Program.markUniform
    split <;> exact ih
  | limit _ _ _ ih => exact ih

/-- No instruction stands in two places, so the body is no longer than the table. -/
theorem Shows.length_le (shown : prog.Shows order code) :
    (order.flatMap code).length ≤ prog.instructions.size := by
  have keys : ((order.flatMap code).map Prod.fst).Nodup := by
    rw [map_flatMap, nodup_flatMap]
    refine ⟨fun blk _ => shown.arranged.nodup blk, shown.arranged.orderNodup.imp ?_⟩
    intro blk one apart k here there
    exact apart (shown.arranged.block_unique here there)
  refine (length_map Prod.fst).symm.trans_le (Key.length_le keys fun k mem => ?_)
  obtain ⟨line, isLine, rfl⟩ := mem_map.mp mem
  obtain ⟨blk, _, isMem⟩ := mem_flatMap.mp isLine
  exact index_lt_of_get? (shown.stored blk line isMem)

end Program

end RegisterChains

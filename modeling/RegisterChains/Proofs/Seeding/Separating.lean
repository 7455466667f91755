/-
This file says what happens to a program when a register is claimed by two descriptors: a
copy that nobody needs becomes the member of the later one, or a fresh register does, with a
copy at the start or at the end of the program. Either way the new member is in use and not
pinned.
-/

import RegisterChains.Proofs.Program.Operations
import RegisterChains.Proofs.Seeding.Pinning

namespace RegisterChains

open Pass Program

namespace Seeding

open ChainGraph List Program Step Tracking

variable {prog after : Program} {r other : Register} {pass next : Pass} {inst : Instruction}
  {track : Tracking} {g : ChainGraph} {blk : BlockId}

/-! ### Copies that can become outputs -/

/-- A register that is not pinned and that the body writes. -/
structure Spare (g : ChainGraph) (prog : Program) (reg : Register) : Prop where
  unpinned : g.pinAt reg = none
  written : ∃ key inst, prog.instructions.get? key = some inst ∧ reg ∈ inst.dests

theorem instruction_of_instructionsOf {instructions : List Instruction}
    (listed : prog.instructionsOf blk = .ok instructions) (mem : inst ∈ instructions) :
    ∃ k, prog.instructions.get? k = some inst := by
  obtain ⟨keys, _, passed⟩ := except_bind_eq_ok.mp listed
  obtain ⟨k, _, found⟩ := exists_of_mapM passed mem
  exact ⟨k, Arena.get_eq_ok.mp found⟩

theorem spare_of_isPrivate (isPrivate : Seeding.isPrivate g prog r = .ok true) :
    Spare g prog r := by
  unfold Seeding.isPrivate at isPrivate
  simp only at isPrivate
  split at isPrivate
  · cases isPrivate
  · next free =>
    obtain ⟨lists, listed, answer⟩ := except_bind_eq_ok.mp isPrivate
    rw [except_pure_eq_ok, Bool.and_eq_true] at answer
    have positive : 0 < count r (lists.flatten.flatMap (·.dests)) := by
      rw [eq_of_beq answer.2]
      exact Nat.one_pos
    obtain ⟨inst, mem, written⟩ := mem_flatMap.mp (count_pos_iff.mp positive)
    obtain ⟨instructions, mem', isMem⟩ := mem_flatten.mp mem
    obtain ⟨blk, _, listed'⟩ := exists_of_mapM listed mem'
    obtain ⟨k, found⟩ := instruction_of_instructionsOf listed' isMem
    refine ⟨?_, k, inst, found, written⟩
    simp only [Bool.or_eq_true, not_or, Bool.not_eq_true, Option.isSome_eq_false_iff,
      Option.isNone_iff_eq_none] at free
    exact free.1.1

theorem follow_yields {next : Tracking} {id : InstructionId} {place : UInt32}
    (sound : track.Sound) (ran : (follow id inst place).Yields track () next) :
    track.graph.Alike next.graph ∧ next.Sound := by
  unfold follow at ran
  rw [yields_modify_bind, yields_modify_bind] at ran
  have used := (sound.noteUses inst.sources place).1
  have written := used.trans (used.sound.noteDefs inst.dests).1
  split at ran
  · obtain ⟨_, records, _⟩ := yields_bind_pure.mp ran
    have recorded := written.trans (written.sound.recordCopy records).tends
    exact ⟨recorded.alike, recorded.sound⟩
  · obtain ⟨_, rfl⟩ := yields_pure.mp ran
    exact ⟨written.alike, written.sound⟩

theorem followAll_yields {next : Tracking} {places : List (InstructionId × Nat)}
    (sound : track.Sound) (ran : (followAll prog places).Yields track () next) :
    track.graph.Alike next.graph ∧ next.Sound := by
  induction places generalizing track with
  | nil =>
    obtain ⟨_, rfl⟩ := yields_pure.mp ran
    exact ⟨sound.graph.alike_refl, sound⟩
  | cons place rest ih =>
    obtain ⟨inst, _, ran⟩ := yields_lift_bind.mp ran
    obtain ⟨_, mid, follows, ran⟩ := yields_bind.mp ran
    obtain ⟨alike, sound'⟩ := follow_yields sound follows
    obtain ⟨alikeRest, sound''⟩ := ih sound' ran
    exact ⟨alike.trans alikeRest, sound''⟩

/-- At the end of a block, a register is known to hold a copy of a value. -/
def Copied (prog : Program) (blk : BlockId) (v holder : Register) : Prop :=
  ∃ g keys track owned, Tracking.Sound ⟨.empty blk, g⟩ ∧ prog.layout.instructionsOf blk = .ok keys ∧
    (followAll prog keys.zipIdx).Yields ⟨.empty blk, g⟩ () track ∧
    track.Knows v holder owned

/-- The search for a copy leaves no marks. -/
theorem spareCopy_yields {next : Tracking} {v : Register} {found : Option Register}
    (sound : Tracking.Sound ⟨.empty blk, g⟩)
    (ran : (spareCopy prog blk v).Yields ⟨.empty blk, g⟩ found next) :
    g.Alike next.graph ∧ Unmarked next.graph ∧
      ∀ holder ∈ found, Spare next.graph prog holder ∧ Copied prog blk v holder := by
  obtain ⟨keys, listed, ran⟩ := yields_lift_bind.mp ran
  obtain ⟨_, followed, follows, ran⟩ := yields_bind.mp ran
  rw [yields_get_bind] at ran
  obtain ⟨holders, held, ran⟩ := yields_lift_bind.mp ran
  obtain ⟨_, searched, searches, ends⟩ := yields_bind.mp ran
  obtain ⟨rfl, passes⟩ := yields_findM searches
  obtain ⟨_, finished, finishes, ended⟩ := yields_bind.mp ends
  obtain ⟨rfl, rfl⟩ := yields_pure.mp ended
  obtain ⟨alike, sound'⟩ := followAll_yields sound follows
  obtain rfl := sound'.eq_removeAll finishes
  obtain ⟨cleared, _, unmarked⟩ := sound'.removeAll
  refine ⟨alike.trans cleared.alike, unmarked, fun holder isFound => ?_⟩
  obtain ⟨isHolder, isPrivate⟩ := passes holder isFound
  have spare := spare_of_isPrivate isPrivate
  refine ⟨⟨(cleared.alike.pin holder).trans spare.unpinned, spare.written⟩, ?_⟩
  obtain ⟨record, mem, rfl⟩ := mem_map.mp isHolder
  obtain ⟨id, known, holds⟩ := sound'.of_holders held mem
  exact ⟨g, keys, searched, record.owned, sound, listed, follows, id, record, known,
    holds, rfl, rfl⟩

/-! ### Contested registers -/

/-- What is done to a program to give a contested register's second claimant a register of
its own. -/
inductive Separates (prog : Program) (reg : Register) :
    DescriptorKind → Register → Program → Prop where
  /-- The later descriptor takes over a copy. -/
  | taken {holder exit key inst} : prog.layout.exit = some exit → Copied prog exit reg holder →
    prog.instructions.get? key = some inst → holder ∈ inst.dests →
    Separates prog reg .output holder prog
  /-- The hardware writes both registers. -/
  | input {number stop after} : (allocate 1).Yields prog (number, stop) after →
    Separates prog reg .input (.temp number) after
  /-- The fresh register is written at the end. -/
  | output {number stop} {middle after : Program} {exit key} : middle.layout.exit = some exit →
    (allocate 1).Yields prog (number, stop) middle →
    (push exit (.move (.temp number) reg)).Yields middle key after →
    Separates prog reg .output (.temp number) after
  /-- The fresh register is written at the start and stands for the contested one. -/
  | array {number stop} {middle copied after : Program} {entry key} :
    middle.layout.entry = some entry →
    (allocate 1).Yields prog (number, stop) middle →
    (prepend entry (.move (.temp number) reg)).Yields middle key copied →
    (renameAfter key reg (.temp number)).Yields copied () after →
    Separates prog reg .array (.temp number) after

variable {claimant : DescriptorKind} {desc : Descriptor} {fresh : Register} {owner : Pin}

/-- The new member is in use, and no less than before is. -/
theorem Separates.noted (separates : Separates prog r claimant other after) (closed : prog.Closed) :
    after.Noted other ∧ prog.nextTemp ≤ after.nextTemp ∧
      after.descriptors = prog.descriptors := by
  cases separates with
  | taken _ _ found written =>
    exact ⟨closed.operands _ _ found other (mem_append_left _ written), UInt32.le_refl _, rfl⟩
  | input allocates =>
    obtain ⟨noted, _, grown⟩ := noted_of_allocate allocates
    obtain ⟨_, _, _, _, rfl⟩ := allocate_yields.mp allocates
    exact ⟨noted, grown, rfl⟩
  | output _ allocates pushes =>
    obtain ⟨noted, _, grown⟩ := noted_of_allocate allocates
    obtain ⟨_, _, _, _, rfl⟩ := allocate_yields.mp allocates
    obtain ⟨_, _, _, _, rfl⟩ := push_yields pushes
    exact ⟨noted, grown, rfl⟩
  | array _ allocates prepends renames =>
    obtain ⟨noted, _, grown⟩ := noted_of_allocate allocates
    obtain ⟨_, _, _, _, rfl⟩ := allocate_yields.mp allocates
    obtain ⟨_, _, _, _, rfl⟩ := prepend_yields prepends
    obtain ⟨_, _, rfl⟩ := renameAfter_yields renames
    exact ⟨noted, grown, rfl⟩

theorem Separates.closed (separates : Separates prog r claimant other after)
    (closed : prog.Closed) (noted : prog.Noted r) : after.Closed := by
  have allocated : ∀ {number stop mid}, (allocate 1).Yields prog (number, stop) mid →
      mid.Closed ∧ mid.Noted (.temp number) ∧ ∀ op ∈ (Instruction.move (.temp number) r).dests ++
          (Instruction.move (.temp number) r).sources, mid.Noted op := by
    intro number stop mid allocates
    obtain ⟨fresh, _, grown⟩ := noted_of_allocate allocates
    obtain ⟨_, _, _, _, rfl⟩ := allocate_yields.mp allocates
    refine ⟨closed.mono rfl rfl grown, fresh, fun op mem => ?_⟩
    rcases mem_cons.mp mem with rfl | source
    · exact fresh
    · obtain rfl := mem_singleton.mp source
      exact noted.mono grown
  cases separates with
  | taken => exact closed
  | input allocates => exact (allocated allocates).1
  | output _ allocates pushes =>
    obtain ⟨closed', _, ops⟩ := allocated allocates
    exact closed'.adds ops (push_yields pushes)
  | array _ allocates prepends renames =>
    obtain ⟨closed', fresh, ops⟩ := allocated allocates
    have added := prepend_yields prepends
    have closed'' := closed'.adds ops added
    obtain ⟨_, _, _, _, rfl⟩ := added
    exact closed''.renameAfter fresh renames

theorem separateOutput_yields {exit : BlockId}
    (ran : (separateOutput exit r fresh).Yields pass () next) :
    ∃ k, (push exit (.move fresh r)).Yields pass.program k next.program ∧
      next.graph = pass.graph ∧ next.hoisted = pass.hoisted := by
  obtain ⟨k, prog, pushed, counts⟩ := yields_bind_of onProgram_yields ran
  obtain rfl := count_yields.mp counts
  exact ⟨k, pushed, rfl, rfl⟩

theorem separateArray_yields (ran : (separateArray r fresh).Yields pass () next) :
    ∃ entry k copied, pass.program.layout.entry = some entry ∧
      (prepend entry (.move fresh r)).Yields pass.program k copied ∧
      (renameAfter k r fresh).Yields copied () next.program ∧
      next.graph = pass.graph ∧ next.hoisted = pass.hoisted := by
  unfold separateArray at ran
  rw [yields_get_bind] at ran
  split at ran
  · next entry isEntry =>
    obtain ⟨k, copied, prepended, ran⟩ := yields_bind_of onProgram_yields ran
    obtain ⟨_, renamed, renamedAll, counts⟩ := yields_bind_of onProgram_yields ran
    obtain rfl := count_yields.mp counts
    exact ⟨entry, k, copied, isEntry, prepended, renamedAll, rfl, rfl⟩
  · exact absurd ran not_yields_contradict

/-- Hands out a fresh register and writes it where its descriptor needs it. -/
def separateFresh (desc : Descriptor) (r : Register) (ownerKind : DescriptorKind) :
    Step Pass Register := do
  let (number, _) ← onProgram (allocate 1)
  let fresh := Register.temp number
  match desc.kind with
  | .output =>
    let some exit := (← get).program.layout.exit | Step.contradict .outputWithoutBlocks
    separateOutput exit r fresh
  | .array => separateArray r fresh
  | .input => pure ()
  Step.report (.separated r ownerKind fresh desc.kind)
  return fresh

theorem separateFresh_yields {ownerKind : DescriptorKind}
    (ran : (separateFresh desc r ownerKind).Yields pass other next) : next.graph = pass.graph ∧
      Separates pass.program r desc.kind other next.program ∧
      ¬ pass.program.Noted other ∧ next.hoisted = pass.hoisted := by
  obtain ⟨⟨number, stop⟩, allocated, allocation, ran⟩ := yields_bind_of onProgram_yields ran
  have unused := (noted_of_allocate allocation).2.1
  simp only at ran
  split at ran
  · next isOutput =>
    rw [yields_get_bind] at ran
    split at ran
    · next exit isExit =>
      obtain ⟨_, _, separates, ran⟩ := yields_bind.mp ran
      rw [yields_report_bind, yields_pure] at ran
      obtain ⟨rfl, rfl⟩ := ran
      obtain ⟨k, pushes, g, hoisted⟩ := separateOutput_yields separates
      exact ⟨g, isOutput ▸ .output isExit allocation pushes, unused, hoisted⟩
    · obtain ⟨_, _, no, _⟩ := yields_bind.mp ran
      exact absurd no not_yields_contradict
  · next isArray =>
    obtain ⟨_, _, separates, ran⟩ := yields_bind.mp ran
    rw [yields_report_bind, yields_pure] at ran
    obtain ⟨rfl, rfl⟩ := ran
    obtain ⟨entry, k, copied, isEntry, prepends, renames, g, hoisted⟩ :=
      separateArray_yields separates
    exact ⟨g, isArray ▸ .array isEntry allocation prepends renames, unused, hoisted⟩
  · next isInput =>
    rw [yields_report_bind, yields_pure] at ran
    obtain ⟨rfl, rfl⟩ := ran
    exact ⟨rfl, isInput ▸ .input allocation, unused, rfl⟩

/-- A contested register is separated by changing the program. The constraints stay as they
are, and the new member is not pinned unless a register is that the program did not note. -/
theorem separate_yields (sound : pass.graph.Sound) (unmarked : Unmarked pass.graph)
    (ran : (separate desc r owner).Yields pass other next) :
    pass.graph.Alike next.graph ∧ Unmarked next.graph ∧
      Separates pass.program r desc.kind other next.program ∧
      ((∀ r, pass.graph.pinAt r ≠ none → pass.program.Noted r) → next.graph.pinAt other = none) ∧
      next.hoisted = pass.hoisted := by
  unfold separate at ran
  rw [yields_get_bind] at ran
  obtain ⟨owning, _, ran⟩ := yields_lift_bind.mp ran
  obtain ⟨_, ran⟩ := yields_unless_contradict.mp ran
  have fresh : ∀ mid : Pass, pass.graph.Alike mid.graph → Unmarked mid.graph →
      mid.program = pass.program → mid.hoisted = pass.hoisted →
      (separateFresh desc r owning.kind).Yields mid other next →
      pass.graph.Alike next.graph ∧ Unmarked next.graph ∧
        Separates pass.program r desc.kind other next.program ∧
        ((∀ r, pass.graph.pinAt r ≠ none → pass.program.Noted r) → next.graph.pinAt other = none) ∧
        next.hoisted = pass.hoisted := by
    intro mid alike unmarked same kept ran
    obtain ⟨g, separates, unused, hoisted⟩ := separateFresh_yields ran
    rw [same] at separates unused
    refine ⟨g ▸ alike, g ▸ unmarked, separates, fun noted => ?_, hoisted.trans kept⟩
    rw [g, alike.pin]
    by_contra pinned
    exact unused (noted other pinned)
  change (if desc.kind = .output then _ else
    separateFresh desc r owning.kind).Yields pass other next at ran
  split at ran
  · next isOutput =>
    rw [yields_get_bind] at ran
    simp only at ran
    split at ran
    · next exit isExit =>
      obtain ⟨found, _, searches, ran⟩ := yields_bind.mp ran
      obtain ⟨track, searched, rfl⟩ := withCache_yields.mp searches
      obtain ⟨alike, unmarked', spare⟩ :=
        spareCopy_yields (sound_empty sound unmarked exit) searched
      cases found with
      | some holder =>
        rw [yields_report_bind, yields_pure] at ran
        obtain ⟨rfl, rfl⟩ := ran
        obtain ⟨⟨unpinned, k, inst, isFound, written⟩, copied⟩ := spare other rfl
        exact ⟨alike, unmarked', isOutput ▸ .taken isExit copied isFound written,
          fun _ => unpinned, rfl⟩
      | none => exact fresh { pass with graph := track.graph } alike unmarked' rfl rfl ran
    · obtain ⟨_, _, no, _⟩ := yields_bind.mp ran
      exact absurd no not_yields_contradict
  · exact fresh pass sound.alike_refl unmarked rfl rfl ran

/-- Arrays are not separated from each other. -/
theorem separate_owner (ran : (separate desc r owner).Yields pass other next) :
    ∃ owning, pass.program.descriptors.get? owner.binding = some owning ∧
      ¬ (desc.kind = .array ∧ owning.kind = .array) := by
  unfold separate at ran
  rw [yields_get_bind] at ran
  obtain ⟨owning, found, ran⟩ := yields_lift_bind.mp ran
  obtain ⟨apart, _⟩ := yields_unless_contradict.mp ran
  exact ⟨owning, Arena.get_eq_ok.mp found, by simpa using apart⟩

end Seeding

end RegisterChains

/-
This file proves that seeding descriptors breaks no rule. Every pin belongs to a descriptor that was
declared, every block that is looked through is there, and a copy that becomes a member is held by
a register that can have a node. Only a number can be too large, and the table of instructions can
be full.
-/

import RegisterChains.Proofs.Repair.Headroom
import RegisterChains.Proofs.Seeding.Placement

namespace RegisterChains

open Pass Program

namespace Seeding

open ChainGraph List Program Step

variable {prog after : Program} {order : List BlockId} {code : BlockId → List Line}
  {track next : Tracking} {blk exit : BlockId} {r other : Register} {g : ChainGraph}

/-! ### Copies that can become outputs -/

theorem exists_follow (sound : track.Sound) (id : InstructionId) (inst : Instruction)
    (place : UInt32) : ∃ next, (follow id inst place).Yields track () next := by
  have used := (sound.noteUses inst.sources place).1.sound
  have written := (used.noteDefs inst.dests).1.sound
  unfold follow
  simp only [yields_modify_bind]
  split
  · next dest source _ =>
    obtain ⟨_, next, ran, _⟩ := written.exists_recordCopy source dest (some id) place false
    exact ⟨next, yields_bind_pure.mpr ⟨_, ran, rfl⟩⟩
  · exact ⟨_, yields_pure.mpr ⟨rfl, rfl⟩⟩

/-- The instructions of a block can be followed to its end. -/
theorem exists_followAll {lines : List Line} {count : Nat} (sound : track.Sound)
    (stored : ∀ line ∈ lines, prog.instruction line.1 = .ok line.2) :
    ∃ next, (followAll prog ((lines.map Prod.fst).zipIdx count)).Yields track () next := by
  induction lines generalizing track count with
  | nil => exact ⟨track, yields_pure.mpr ⟨rfl, rfl⟩⟩
  | cons line rest ih =>
    obtain ⟨mid, follows⟩ := exists_follow sound line.1 line.2 count.toUInt32
    obtain ⟨next, later⟩ := ih (follow_yields sound follows).2 fun one mem =>
      stored one (mem_cons_of_mem _ mem)
    exact ⟨next, yields_lift_bind.mpr ⟨line.2, stored line mem_cons_self,
      yields_bind.mpr ⟨(), mid, follows, later⟩⟩⟩

theorem exists_isPrivate (shown : prog.Shows order code) (g : ChainGraph) (r : Register) :
    ∃ answer, isPrivate g prog r = .ok answer := by
  unfold isPrivate
  simp only
  split
  · exact ⟨_, rfl⟩
  · refine exists_bind_of_exists (exists_mapM_eq_ok fun blk mem => ?_) fun _ _ => ⟨_, rfl⟩
    rw [shown.blocks_eq] at mem
    exact ⟨_, shown.instructionsOf_body mem⟩

theorem safe_spareCopy {excuse : Tracking → Prop} (sound : g.Sound)
    (unmarked : Tracking.Unmarked g) (shown : prog.Shows order code) (body : blk ∈ order)
    (v : Register) : (spareCopy prog blk v).FailsFor (onBreach excuse) ⟨.empty blk, g⟩ := by
  have listed := shown.arranged.instructionsOf_eq.mpr ⟨shown.arranged.mem_order body, rfl⟩
  have empty := Tracking.sound_empty sound unmarked blk
  obtain ⟨followed, follows⟩ := @exists_followAll prog _ (code blk) 0 empty fun line mem =>
    shown.instruction_eq mem
  have sound' := (followAll_yields empty follows).2
  obtain ⟨records, held⟩ := sound'.exists_holders v
  refine fails_ok_bind listed (follows.fails_bind ?_)
  refine fails_ok_bind held (fails_bind ?_ fun spare searched searches => ?_)
  · refine fails_findM fun holder _ cause broken => ?_
    obtain ⟨answer, answered⟩ := exists_isPrivate shown followed.graph holder
    cases answered.symm.trans broken
  · obtain ⟨rfl, _⟩ := yields_findM searches
    exact sound'.finish.fails_bind fails_pure

theorem Copied.virtual {v holder : Register} (copied : Copied prog blk v holder) :
    holder.isVirtual = true := by
  obtain ⟨g, keys, track, owned, sound, _, follows, known⟩ := copied
  exact (followAll_yields sound follows).2.virtual_of_knows known

/-! ### Contested registers -/

section

variable {claimant : DescriptorKind}

theorem Separates.virtual (separates : Separates prog r claimant other after) :
    other.isVirtual = true := by
  cases separates with
  | taken _ copied _ _ => exact copied.virtual
  | input _ => rfl
  | output _ _ _ => rfl
  | array _ _ _ _ => rfl

theorem Separates.blockNames (separates : Separates prog r claimant other after) :
    after.blockNames = prog.blockNames := by
  cases separates with
  | taken => rfl
  | input allocates =>
    obtain ⟨_, _, _, _, rfl⟩ := allocate_yields.mp allocates
    rfl
  | output _ allocates pushes =>
    obtain ⟨_, _, _, _, rfl⟩ := allocate_yields.mp allocates
    obtain ⟨_, _, _, _, rfl⟩ := push_yields pushes
    rfl
  | array _ allocates prepends renames =>
    obtain ⟨_, _, _, _, rfl⟩ := allocate_yields.mp allocates
    obtain ⟨_, _, _, _, rfl⟩ := prepend_yields prepends
    obtain ⟨_, _, rfl⟩ := renameAfter_yields renames
    rfl

theorem Edits.blockNames {start : Program} (edits : Edits start prog) :
    prog.blockNames = start.blockNames := by
  induction edits with
  | refl => rfl
  | separate _ _ _ separates ih =>
    exact separates.blockNames.trans ih

end

variable {pass : Pass} {desc : Descriptor} {fresh : Register}

section

variable (shown : pass.program.Shows order code)

include shown

theorem safe_separateOutput (isExit : pass.program.layout.exit = some exit) :
    (separateOutput exit r fresh).FailsFor (onBreach Full) pass := by
  have body : exit ∈ order := mem_of_getLast? (shown.arranged.exit ▸ isExit)
  have pushes : (push exit (.move fresh r)).FailsFor (onBreach Full) pass.program :=
    safe_push shown (shown.arranged.mem_order body)
  exact fails_bind pushes fun _ _ _ => fails_modify

theorem safe_separateArray : (separateArray r fresh).FailsFor (onBreach Full) pass := by
  unfold separateArray
  rw [fails_get_bind]
  split
  · next entry isEntry =>
    obtain ⟨rest, starts⟩ : ∃ rest, order = entry :: rest :=
      head?_eq_some_iff.mp (shown.arranged.entry ▸ isEntry)
    have body : entry ∈ order := starts ▸ mem_cons_self
    have prepends : (prepend entry (.move fresh r)).FailsFor (onBreach Full)
        pass.program := safe_prepend shown (shown.arranged.mem_order body)
    refine fails_bind prepends fun k _ inserts => ?_
    obtain ⟨copied, prepended, rfl⟩ := onProgram_yields.mp inserts
    have later := (shown.prepend prepended).laterInstructions_eq starts (Function.update_self ..)
    have renames : (renameAfter k r fresh).FailsFor (onBreach Full) copied := by
      exact fails_ok_bind later fails_modify
    exact fails_bind renames fun _ _ _ => fails_modify
  · exact fails_stop trivial

theorem safe_separateFresh (ownerKind : DescriptorKind) :
    (separateFresh desc r ownerKind).FailsFor (onBreach Full) pass := by
  have allocates : (allocate 1).FailsFor (onBreach Full) pass.program :=
    fails_allocate fun _ => trivial
  refine fails_bind allocates fun numbers _ allocation => ?_
  obtain ⟨allocated, ran, rfl⟩ := onProgram_yields.mp allocation
  have shown' := shown.allocate ran
  simp only
  split
  · rw [fails_get_bind]
    split
    · next exit isExit =>
      refine fails_bind (safe_separateOutput shown' isExit) fun _ _ _ => ?_
      exact fails_report_bind.mpr fails_pure
    · exact fails_bind (fails_stop trivial) fun _ _ no =>
        absurd no not_yields_contradict
  · refine fails_bind (safe_separateArray shown') fun _ _ _ => ?_
    exact fails_report_bind.mpr fails_pure
  · exact fails_report_bind.mpr fails_pure

end

/-- A contested register is separated without a breach, as long as there are keys. -/
theorem safe_separate {owner : Pin} {owning : Descriptor} (consistent : Consistent pass)
    (shown : pass.program.Shows order code)
    (isOwner : pass.program.descriptors.get? owner.binding = some owning) :
    (separate desc r owner).FailsFor (onBreach Full) pass := by
  unfold separate
  rw [fails_get_bind]
  refine fails_ok_bind (Arena.get_eq_ok.mpr isOwner) ?_
  refine fails_unless_contradict trivial fun _ => ?_
  change (if desc.kind = .output then _ else
    separateFresh desc r owning.kind).FailsFor (onBreach Full) pass
  split
  · rw [fails_get_bind]
    simp only
    split
    · next exit isExit =>
      have body : exit ∈ order := mem_of_getLast? (shown.arranged.exit ▸ isExit)
      have searches : (spareCopy pass.program exit r).FailsFor
          (onBreach (fun track => Full { pass with graph := track.graph }))
          ⟨.empty exit, pass.graph⟩ :=
        safe_spareCopy consistent.pinned.sound consistent.pinned.unmarked shown body r
      have search : (withCache exit (spareCopy pass.program exit r)).FailsFor
          (onBreach Full) pass := searches
      refine fails_bind search fun spare _ finds => ?_
      obtain ⟨track, _, rfl⟩ := withCache_yields.mp finds
      cases spare with
      | some holder => exact fails_report_bind.mpr fails_pure
      | none =>
        have shown' : Shows { pass with graph := track.graph }.program order code := shown
        exact safe_separateFresh shown' owning.kind
    · exact fails_bind (fails_stop trivial) fun _ _ no =>
        absurd no not_yields_contradict
  · exact safe_separateFresh shown owning.kind

/-! ### Members -/

/-- A register that is not pinned yet is pinned without a breach. -/
theorem safe_pinMember {excuse : ChainGraph → Prop} {pin : Pin} {prev : Option Register}
    (pinned : g.Pinned) (unpinned : g.pinAt r = none) (virt : r.isVirtual = true) :
    (pinMember desc r pin prev).FailsFor (onBreach excuse) g := by
  have creates : (create r).Yields g _ _ := create_yields.mpr ⟨virt, rfl, rfl⟩
  obtain ⟨_, attached, named⟩ := pinned.attached unpinned creates desc.kind pin
  obtain ⟨n, isNode, _⟩ := attached.sound.live_of_find named
  rw [pinMember_eq]
  refine creates.fails_bind ?_
  rw [fails_modify_bind]
  refine fails_bind (safe_demandParity ⟨n, isNode⟩) fun numbered mid demands => ?_
  have evolves := demands.leaves_eq ▸ attached.sound.evolves_demandParity
    (g.ensure r).result (pin.physical.elim .any .ofNumber) false
  obtain ⟨n', isNode', _⟩ := evolves.grows.node _ _ isNode
  refine fails_bind (safe_demandParity ⟨n', isNode'⟩) fun aligned _ _ => ?_
  refine fails_unless_contradict trivial fun _ => ?_
  cases prev with
  | none => exact fails_report
  | some first =>
    refine (apply_yields.mpr ⟨rfl, rfl⟩).fails_bind ?_
    exact fails_unless_contradict trivial fun _ => fails_report

section

variable {declared : BindingId → Option Descriptor} {rows : BindingId → List Register}
  {bnd : BindingId} {ms : List Register} {left : List BindingId}

/-- A member is seeded without a breach, as long as it has a number and there are keys. -/
theorem Filling.safe_seedMember (filling : Filling declared bnd desc rows (r :: ms) pass)
    (shown : pass.program.Shows order code)
    (known : ∀ one, declared one ≠ none → pass.program.descriptors.get? one ≠ none)
    {physical : Option UInt32} (isPhysical : desc.physicalAt (rows bnd).length = .ok physical) :
    (seedMember bnd desc r (rows bnd).length (rows bnd).getLast?).FailsFor (onBreach Full)
      pass := by
  have consistent := filling.consistent
  have noted : pass.program.Noted r :=
    consistent.closed.members bnd _ filling.found r (by simp)
  unfold seedMember
  refine fails_unless_contradict trivial fun notHardware => ?_
  have virt : r.isVirtual = true := by simpa using notHardware
  refine fails_ok_bind isPhysical ?_
  rw [fails_get_bind]
  simp only
  split
  · next owner isPin =>
    split
    · exact fails_pure
    · obtain ⟨_, _, isDeclared, _⟩ := filling.laid.owned r owner isPin
      obtain ⟨owning, isOwner⟩ := Option.ne_none_iff_exists'.mp
        (known owner.binding (by rw [isDeclared]; exact Option.some_ne_none _))
      refine fails_bind (safe_separate consistent shown isOwner) fun other separated seps => ?_
      obtain ⟨consistent', _, unpinned⟩ :=
        consistent.separate bnd (rows bnd).length noted virt seps
      obtain ⟨_, _, separates, _⟩ :=
        separate_yields consistent.pinned.sound consistent.pinned.unmarked seps
      refine fails_bind (fails_within.mpr fails_modify) fun _ _ replaces => ?_
      obtain ⟨_, replaced, rfl⟩ := onProgram_yields.mp replaces
      refine fails_bind (fails_within.mpr ?_) fun _ _ _ => fails_pure
      exact safe_pinMember consistent'.pinned unpinned separates.virtual
  · next unpinned =>
    refine fails_bind (fails_within.mpr ?_) fun _ _ _ => fails_pure
    exact safe_pinMember consistent.pinned unpinned virt

theorem Filling.safe_seedMembers (filling : Filling declared bnd desc rows ms pass)
    (shown : pass.program.Shows order code)
    (known : ∀ one, declared one ≠ none → pass.program.descriptors.get? one ≠ none)
    (numbered : ∀ offset < (rows bnd).length + ms.length,
      ∃ physical, desc.physicalAt offset = .ok physical) :
    (seedMembers bnd desc (ms.zipIdx (rows bnd).length)
      (rows bnd).getLast?).FailsFor (onBreach Full) pass := by
  induction ms generalizing pass rows code with
  | nil => exact fails_pure
  | cons r rest ih =>
    rw [length_cons] at numbered
    obtain ⟨physical, isPhysical⟩ := numbered (rows bnd).length (by omega)
    rw [zipIdx_cons]
    refine fails_bind (filling.safe_seedMember shown known isPhysical) fun other _ seeds => ?_
    obtain ⟨filling', advances⟩ := filling.grows seeds
    obtain ⟨code', shown', _⟩ := advances.edits.shows shown
    have length : (Function.update rows bnd (rows bnd ++ [other]) bnd).length =
        (rows bnd).length + 1 := by simp
    have last : (Function.update rows bnd (rows bnd ++ [other]) bnd).getLast? =
        some other := by simp
    rw [← length, ← last]
    refine ih filling' shown' (fun one isDeclared => ?_) fun offset lt => ?_
    · by_cases here : one = bnd
      · rw [here, filling'.found]
        exact Option.some_ne_none _
      · rw [advances.others one here]
        exact known one isDeclared
    · rw [length] at lt
      exact numbered offset (by omega)

/-! ### Descriptors -/

/-- All members have numbers in 32 bits, if the first one has. -/
theorem exists_physicalAt
    (range : ∀ base ∈ desc.physical, base.toNat + desc.registers.length ≤ UInt32.size)
    {offset : Nat} (lt : offset < desc.registers.length) :
    ∃ physical, desc.physicalAt offset = .ok physical := by
  unfold Descriptor.physicalAt
  cases isBase : desc.physical with
  | none => exact ⟨_, rfl⟩
  | some base =>
    have room := range base isBase
    have small : offset.toUInt32.toNat ≤ offset := Nat.mod_le ..
    exact ⟨_, if_pos (by omega)⟩

theorem Seating.known (seating : Seating prog left rows pass) (one : BindingId)
    (isDeclared : prog.descriptors.get? one ≠ none) : pass.program.descriptors.get? one ≠ none := by
  by_cases mem : one ∈ left
  · rw [(seating.ahead one mem).2]
    exact isDeclared
  · obtain ⟨desc, found⟩ := Option.ne_none_iff_exists'.mp isDeclared
    rw [(seating.behind one desc found mem).2]
    exact Option.some_ne_none _

variable (ranges : ∀ bnd desc, prog.descriptors.get? bnd = some desc →
  ∀ base ∈ desc.physical, base.toNat + desc.registers.length ≤ UInt32.size)

include ranges

theorem Seating.safe_seed (seating : Seating prog (bnd :: left) rows pass)
    (shown : pass.program.Shows order code) (isDeclared : prog.descriptors.get? bnd = some desc) :
    (Seeding.seed bnd).FailsFor (onBreach Full) pass := by
  obtain ⟨bare, same⟩ := seating.ahead bnd mem_cons_self
  have filling := seating.filling isDeclared
  have ms := filling.safe_seedMembers shown seating.known fun offset lt =>
    exists_physicalAt (ranges bnd desc isDeclared) (by
      rw [bare] at lt
      simpa using lt)
  rw [bare] at ms
  unfold Seeding.seed
  rw [fails_get_bind]
  exact fails_ok_bind (Arena.get_eq_ok.mpr (same.trans isDeclared)) ms

theorem Seating.safe_seedEach (distinct : left.Nodup)
    (isDeclared : ∀ bnd ∈ left, prog.descriptors.get? bnd ≠ none)
    (seating : Seating prog left rows pass) (shown : pass.program.Shows order code) :
    (seedEach left).FailsFor (onBreach Full) pass := by
  induction left generalizing pass rows code with
  | nil => exact fails_pure
  | cons bnd rest ih =>
    obtain ⟨isNew, distinct⟩ := nodup_cons.mp distinct
    obtain ⟨desc, found⟩ := Option.ne_none_iff_exists'.mp (isDeclared bnd mem_cons_self)
    refine fails_bind (seating.safe_seed ranges shown found) fun _ _ seeds => ?_
    obtain ⟨_, advances, _⟩ := seed_yields seating.consistent seeds
    obtain ⟨code', shown', _⟩ := advances.edits.shows shown
    obtain ⟨rows', seating'⟩ := seating.seed isNew seeds
    exact ih distinct (fun one mem => isDeclared one (mem_cons_of_mem _ mem)) seating' shown'

/-- Descriptors whose numbers are in range are seeded without a breach, as long as there are
keys. -/
theorem safe_seedAll (target : Target) (closed : prog.Closed) (shown : prog.Shows order code) :
    seedAll.FailsFor (onBreach Full) (.start target prog) := by
  unfold seedAll
  rw [fails_get_bind]
  refine (seating_start target closed).safe_seedEach ranges (nodup_order prog)
    (fun bnd mem => ?_) shown
  unfold Seeding.order at mem
  rw [mem_append, mem_append] at mem
  obtain ⟨kind, listed⟩ : ∃ kind, bnd ∈ ofKind prog kind := by
    rcases mem with (input | array) | output
    · exact ⟨_, input⟩
    · exact ⟨_, array⟩
    · exact ⟨_, output⟩
  obtain ⟨desc, found, _⟩ := mem_ofKind.mp listed
  rw [found]
  exact Option.some_ne_none _

end

end Seeding

end RegisterChains

/-
This file says what the copies of a repair do to the lines of a block. Copies behind an
instruction follow it in order. Copies in front of it stand right before it, or at the end of the
preamble.
-/

import RegisterChains.Proofs.Repair.Extending

namespace RegisterChains

open Function List Program Step

/-- The line of a copy behind an instruction. -/
def PendingCopy.line (copy : PendingCopy) : Line :=
  (copy.instruction, .move copy.value copy.holder)

namespace Program

variable {prog mid after : Program} {order : List BlockId}
  {code code' code'' : BlockId → List Line} {blk : BlockId} {lines lines' : List Line}
  {hoists hoists' : List Instruction}

/-- One block consists of other lines, and the preamble ends with some more instructions. -/
structure Reworks (prog : Program) (order : List BlockId) (code : BlockId → List Line)
    (block : BlockId) (lines : List Line) (hoists : List Instruction) (after : Program)
    (code' : BlockId → List Line) : Prop where
  shown : after.Shows order code'
  here : code' block = lines
  hoisted : ∀ preamble, prog.preamble = some preamble →
    (code' preamble).map Prod.snd = (code preamble).map Prod.snd ++ hoists
  elsewhere : ∀ other, other ≠ block → prog.preamble ≠ some other → code' other = code other
  preamble : after.preamble = prog.preamble

namespace Reworks

theorem of_update (shown : after.Shows order (update code blk lines))
    (apart : prog.preamble ≠ some blk) (preamble : after.preamble = prog.preamble) :
    prog.Reworks order code blk lines [] after (update code blk lines) where
  shown := shown
  here := update_self ..
  hoisted one isPreamble := by
    have ne : one ≠ blk := fun same => apart (same ▸ isPreamble)
    rw [update_of_ne ne, append_nil]
  elsewhere one ne _ := update_of_ne ne ..
  preamble := preamble

theorem refl (shown : prog.Shows order code) :
    prog.Reworks order code blk (code blk) [] prog code :=
  ⟨shown, rfl, fun _ _ => (append_nil _).symm, fun _ _ _ => rfl, rfl⟩

theorem trans (first : prog.Reworks order code blk lines hoists mid code')
    (second : mid.Reworks order code' blk lines' hoists' after code'') :
    prog.Reworks order code blk lines' (hoists ++ hoists') after code'' where
  shown := second.shown
  here := second.here
  hoisted preamble isPreamble := by
    rw [second.hoisted preamble (first.preamble.trans isPreamble),
      first.hoisted preamble isPreamble, append_assoc]
  elsewhere one ne notPreamble := by
    rw [second.elsewhere one ne (first.preamble ▸ notPreamble), first.elsewhere one ne notPreamble]
  preamble := second.preamble.trans first.preamble

end Reworks

theorem Shows.preamble_ne (shown : prog.Shows order code) (body : blk ∈ order) :
    prog.preamble ≠ some blk :=
  fun isPreamble => (shown.aside blk isPreamble).1 body

end Program

namespace Walk

variable {place : UInt32} {k : InstructionId} {walk after : Walk} {inst : Instruction}
  {order : List BlockId} {code : BlockId → List Line} {blk : BlockId} {front back : List Line}
  {pairs : List (Register × Register)} {anchor : Line}

/-- The instruction that is visited was changed. -/
theorem Becomes.shows_changed {ch : Instruction} {next : UInt32} {g : ChainGraph}
    (becomes : walk.Becomes
      (Program.setInstruction k ch { walk.program with nextTemp := next }) g after)
    (shown : walk.program.Shows order code)
    (split : code blk = front ++ (k, inst) :: back) :
    after.program.Shows order (update code blk (front ++ (k, ch) :: back)) := by
  have noted : Program.Shows { walk.program with nextTemp := next } order code :=
    shown.congr rfl rfl rfl
  rw [becomes.program]
  exact noted.setInstruction ch split

/-! ### Copies behind an instruction -/

/-- Whether a member of a run is written elsewhere and has to be put back. -/
def isPutBack (mem : Register × Register × Choice) : Bool := mem.2.2.needsCopy

theorem copyOut_yields {ms : List (Register × Register × Choice)} {copies : List PendingCopy}
    (shown : walk.program.Shows order code) (split : code blk = front ++ anchor :: back)
    (ran : (copyOut anchor.1 ms).Yields walk copies after) : after.program.Shows order
        (update code blk (front ++ anchor :: (copies.map PendingCopy.line ++ back))) ∧
      copies.map (·.pair) = (ms.filter isPutBack).map fun mem => (mem.1, mem.2.1) := by
  induction ms generalizing walk code front anchor copies with
  | nil =>
    obtain ⟨rfl, rfl⟩ := yields_pure.mp ran
    refine ⟨?_, rfl⟩
    rw [map_nil, nil_append, ← split, update_eq_self]
    exact shown
  | cons mem rest ih =>
    obtain ⟨v, holder, choice⟩ := mem
    rw [copyOut] at ran
    split at ran
    · next kept =>
      obtain ⟨shown', copied⟩ := ih shown split ran
      refine ⟨shown', ?_⟩
      rw [copied, filter_cons_of_neg]
      simpa [isPutBack] using kept
    · next moved =>
      obtain ⟨copy, prog, inserted, counting⟩ := yields_bind_of onProgram_yields ran
      have later := yields_count_bind.mp counting
      obtain ⟨copiesRest, copiesOut, rfl⟩ := yields_bind_pure.mp later
      have placed := shown.insertAfter split inserted
      have split' : update code blk (front ++ anchor :: (copy, .move v holder) :: back) blk =
          (front ++ [anchor]) ++ (copy, .move v holder) :: back := by
        rw [update_self, append_assoc, singleton_append]
      obtain ⟨shown', copied⟩ := ih placed split' copiesOut
      constructor
      · rw [update_idem, append_assoc, singleton_append] at shown'
        exact shown'
      · rw [map_cons, copied, filter_cons_of_pos, map_cons]
        simpa [isPutBack] using moved

/-! ### Copies in front of an instruction -/

/-- One register is copied by a move, and several are packed. -/
theorem copyInstruction_cases {copy : Instruction} (isCopy : copyInstruction pairs = .ok copy) :
    (∃ v holder, pairs = [(v, holder)] ∧ copy = .move holder v) ∨
      copy = .plain .pack (pairs.map Prod.snd) (pairs.map Prod.fst) := by
  unfold copyInstruction at isCopy
  split at isCopy
  · cases isCopy
    exact .inl ⟨_, _, rfl, rfl⟩
  · unfold Instruction.packed Instruction.copying at isCopy
    split at isCopy
    · cases isCopy
      exact .inr rfl
    · cases isCopy

/-- The instructions that batches put in front of an instruction, the pairs of registers that
they copy, and the pairs that are copied in the preamble. -/
inductive Copied (pairs : List (Register × Register)) :
    List Batch → List Instruction → List (Register × Register) → List (Register × Register) →
      Prop where
  | nil : Copied pairs [] [] [] []
  | hoist {index : Nat} {pair batches made placed hoisted} :
    pairs[index]? = some pair → Copied pairs batches made placed hoisted →
    Copied pairs (.hoist index :: batches) made placed (pair :: hoisted)
  | inPlace {start width copy batches made placed hoisted} :
    copyInstruction ((pairs.drop start).take width) = .ok copy →
    Copied pairs batches made placed hoisted →
    Copied pairs (.inPlace start width :: batches) (copy :: made)
      ((pairs.drop start).take width ++ placed) hoisted

/-- The copy that is made of a pair in the preamble. -/
def hoistedMove (pair : Register × Register) : Instruction := .move pair.2 pair.1

/-- What is known once some pairs were copied in front of an instruction and others in the
preamble. -/
structure Gains (walk : Walk) (placed hoists : List (Register × Register)) (after : Walk) :
    Prop where
  hoisted : ∀ pair ∈ after.hoisted.pairs, pair ∈ walk.hoisted.pairs ∨ pair ∈ hoists
  deferred : ∀ copy ∈ after.deferred, copy ∈ walk.deferred
  knows : ∀ value dest owned, after.tracking.Knows value dest owned →
    (walk.tracking.Knows value dest owned ∧
      ∀ pair ∈ placed ++ hoists, value ≠ pair.2 ∧ dest ≠ pair.2) ∨
    (owned = true ∧ (value, dest) ∈ placed) ∨ (owned = false ∧ (value, dest) ∈ hoists)

namespace Gains

variable {mid : Walk} {placed placed' hoists hoists' : List (Register × Register)}

theorem refl (walk : Walk) : walk.Gains [] [] walk where
  hoisted _ mem := .inl mem
  deferred _ mem := mem
  knows _ _ _ known := .inl ⟨known, forall_mem_nil _⟩

theorem trans (first : walk.Gains placed hoists mid) (second : mid.Gains placed' hoists' after) :
    walk.Gains (placed ++ placed') (hoists ++ hoists') after where
  hoisted pair mem := by
    rcases second.hoisted pair mem with earlier | new
    · rcases first.hoisted pair earlier with old | new
      · exact .inl old
      · exact .inr (mem_append_left _ new)
    · exact .inr (mem_append_right _ new)
  deferred copy mem := first.deferred copy (second.deferred copy mem)
  knows v dest owned known := by
    rcases second.knows v dest owned known with
      ⟨known', apart'⟩ | ⟨isOwned, new⟩ | ⟨isOwned, new⟩
    · rcases first.knows v dest owned known' with ⟨old, apart⟩ | ⟨isOwned, new⟩ | ⟨isOwned, new⟩
      · refine .inl ⟨old, fun pair mem => ?_⟩
        have either : pair ∈ placed ++ hoists ∨ pair ∈ placed' ++ hoists' := by
          simp only [mem_append] at mem ⊢
          tauto
        exact either.elim (apart pair) (apart' pair)
      · exact .inr (.inl ⟨isOwned, mem_append_left _ new⟩)
      · exact .inr (.inr ⟨isOwned, mem_append_left _ new⟩)
    · exact .inr (.inl ⟨isOwned, mem_append_right _ new⟩)
    · exact .inr (.inr ⟨isOwned, mem_append_right _ new⟩)

end Gains

section

variable (sound : walk.tracking.Sound) (shown : walk.program.Shows order code)
  (body : blk ∈ order)

include sound shown body

/-- A copy at the end of the preamble. -/
theorem hoistCopy_reworks {v holder : Register}
    (ran : (hoistCopy place v holder).Yields walk () after) :
    walk.Gains [] [(v, holder)] after ∧ ∃ code', walk.program.Reworks order code blk
      (code blk) [.move holder v] after.program code' := by
  obtain ⟨preamble, copy, prog, _, _, rfl, isPreamble, pushes, _, learns⟩ :=
    hoistCopy_yields sound ran
  refine ⟨⟨fun pair mem => ?_, learns.deferred, fun one dest owned known => ?_⟩, ?_⟩
  · rcases Assoc.mem_pairs_insert (learns.hoisted pair mem) with new | old
    · exact .inr (mem_singleton.mpr new)
    · exact .inl old
  · rcases learns.knows one dest owned known with ⟨old, apart⟩ | ⟨isOwned, new⟩
    · refine .inl ⟨old, fun pair mem => ?_⟩
      rw [mem_singleton.mp mem]
      exact ⟨fun same => apart.1 (same ▸ mem_singleton_self _),
        fun same => apart.2 (same ▸ mem_singleton_self _)⟩
    · exact .inr (.inr ⟨isOwned, new⟩)
  · have apart : preamble ≠ blk := fun same => shown.preamble_ne body (same ▸ isPreamble)
    have keeps := (push_yields pushes).keeps.trans (keeps_exportRegister holder prog)
    have pushed := (shown.push pushes).exportRegister holder
    rw [learns.program]
    refine ⟨_, pushed, update_of_ne apart.symm .., fun other isOther => ?_,
      fun other _ notPreamble => ?_, keeps.preamble⟩
    · obtain rfl := Option.some_inj.mp (isPreamble.symm.trans isOther)
      rw [update_self, map_append]
      rfl
    · have ne : other ≠ preamble := fun same => notPreamble (same ▸ isPreamble)
      exact update_of_ne ne ..

/-- Copies that are made together right before an instruction. -/
theorem copyInFront_reworks (split : code blk = front ++ anchor :: back)
    (ran : (copyInFront place anchor.1 pairs).Yields walk () after) :
    walk.Gains pairs [] after ∧ ∃ made copy code', copyInstruction pairs = .ok made ∧
      walk.program.Reworks order code blk (front ++ (copy, made) :: anchor :: back) []
        after.program code' := by
  obtain ⟨made, copy, prog, _, _, rfl, isMade, inserts, _, learns⟩ := copyInFront_yields sound ran
  have reworks := Reworks.of_update (shown.insertBefore split inserts)
    (shown.preamble_ne body) (insertBefore_yields inserts).keeps.preamble
  have program_eq : after.program = prog := learns.program
  refine ⟨⟨fun pair mem => .inl (learns.hoisted pair mem), learns.deferred,
    fun one dest owned known => ?_⟩, made, copy, _, isMade,
    program_eq ▸ reworks⟩
  · rcases learns.knows one dest owned known with ⟨old, apart⟩ | ⟨isOwned, new⟩
    · refine .inl ⟨old, fun pair mem => ?_⟩
      rw [append_nil] at mem
      exact ⟨fun same => apart.1 (same ▸ mem_map_of_mem mem),
        fun same => apart.2 (same ▸ mem_map_of_mem mem)⟩
    · exact .inr (.inl ⟨isOwned, new⟩)

/-- The copies that an instruction reads stand right before it or at the end of the preamble. -/
theorem copyIn_yields {batches : List Batch} (split : code blk = front ++ anchor :: back)
    (ran : (copyIn place anchor.1 pairs batches).Yields walk () after) :
    ∃ made placed hoists lines code', Copied pairs batches made placed hoists ∧
      lines.map Prod.snd = made ∧ walk.Gains placed hoists after ∧
      walk.program.Reworks order code blk (front ++ lines ++ anchor :: back)
        (hoists.map hoistedMove) after.program code' := by
  induction batches generalizing walk code front with
  | nil =>
    obtain ⟨_, rfl⟩ := yields_pure.mp ran
    refine ⟨[], [], [], [], code, .nil, rfl, .refl _, ?_⟩
    rw [append_nil, ← split]
    exact .refl shown
  | cons batch rest ih =>
    cases batch with
    | hoist i =>
      rw [copyIn] at ran
      split at ran
      · next v holder found =>
        obtain ⟨_, _, hoists, later⟩ := yields_bind.mp ran
        have sound' := (hoistCopy_extends sound hoists).sound
        obtain ⟨gains, code₁, reworks⟩ := hoistCopy_reworks sound shown body hoists
        obtain ⟨made, placed, hoists', lines, code', copied, isMade, gains', reworks'⟩ :=
          ih sound' reworks.shown (reworks.here.trans split) later
        exact ⟨made, placed, _, lines, code', .hoist found copied, isMade, gains.trans gains',
          reworks.trans reworks'⟩
      · exact absurd ran not_yields_breach
    | inPlace start width =>
      obtain ⟨_, _, copies, later⟩ := yields_bind.mp ran
      have sound' := (copyInFront_extends sound copies).sound
      obtain ⟨gains, copy, k, code₁, isCopy, reworks⟩ :=
        copyInFront_reworks sound shown body split copies
      have split' : code₁ blk = (front ++ [(k, copy)]) ++ anchor :: back := by
        rw [reworks.here, append_assoc, singleton_append]
      obtain ⟨made, placed, hoists, lines, code', copied, isMade, gains', reworks'⟩ :=
        ih sound' reworks.shown split' later
      refine ⟨_, _, hoists, (k, copy) :: lines, code', .inPlace isCopy copied,
        congrArg _ isMade, gains.trans gains', ?_⟩
      have both := reworks.trans reworks'
      rwa [append_assoc front, singleton_append] at both

end

end Walk

end RegisterChains

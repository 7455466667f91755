/-
This file proves that resolving a program breaks no rule: it ends with the chains, or with an error
that says why there are none. The instructions have to be made by the rules of their opcodes, and
what is counted in a few bits has to fit there: the channels of a sample in eight, the numbers of
members and of constants in 32. Then the only thing left to run out of is keys for instructions.
-/

import RegisterChains.Proofs.Accounts
import RegisterChains.Proofs.Seeding.Safety

namespace RegisterChains

open Instruction Seeding Step

variable {spec : MachineSpec} {options : Options} {level : Option Level} {prog program : Program}
  {order : List BlockId} {code : BlockId → List Line}

namespace Pass

theorem safe_checkGraph {pass : Pass} {excuse : Pass → Prop} :
    checkGraph.FailsFor (onBreach excuse) pass := by
  unfold checkGraph
  rw [fails_get_bind]
  split
  · exact fails_stop trivial
  · exact fails_pure

/-- A program is resolved without a breach, as long as there are keys. -/
theorem safe_resolve (closed : prog.Closed) (shown : prog.Shows order code)
    (named : ∀ blk ∈ order, ∃ name, prog.blockNames.get? blk = some name)
    (encodable : ∀ blk, ∀ line ∈ code blk, line.2.Encodable options.relaxEncodings)
    (numbers : ∀ bnd desc, prog.descriptors.get? bnd = some desc →
      ∀ base ∈ desc.physical, base.toNat + desc.registers.length ≤ UInt32.size)
    (constants : options.substituteConstants = true → spec.constants.length ≤ UInt32.size) :
    (resolve ⟨spec.target, options, level⟩).SafeUnless Full (.start spec.target prog) := by
  suffices safe : (resolve ⟨spec.target, options, level⟩).FailsFor (onBreach Full)
      (.start spec.target prog) from fun cause => safe (.breach cause)
  refine fails_bind (safe_seedAll numbers spec.target closed shown) fun _ seeded seeds => ?_
  obtain ⟨consistent, edits, _⟩ := seedAll_yields closed seeds
  have robust : Robust fun _ inst =>
      inst.Encodable options.relaxEncodings :=
    ⟨fun _ dest source _ _ => encodable_move _ dest source,
      fun _ _ r replacement encodable _ _ => encodable.rename r replacement⟩
  obtain ⟨code', shown', _, _, keeps⟩ := edits.shows shown
  have encodable' := keeps robust closed encodable
  have unlooked : seeded.stats.checked = 0 := (balances_seedAll _ []
    (accounted_start shown.arranged shown.aside) _ _ seeds).1
  have provided : Provided options.relaxEncodings order order
      (Walk.cost (order.flatMap code')) seeded := by
    refine ⟨edits.blockNames ▸ named, [], ⟨consistent.pinned.sound, consistent.pinned.unmarked,
      code', shown', ⟨List.nodup_nil, List.forall_mem_nil _, List.forall_mem_nil _⟩,
      (Nat.zero_add _).le, fun line mem => ?_, List.forall_mem_nil _⟩, unlooked.le⟩
    obtain ⟨blk, _, isMem⟩ := List.mem_flatMap.mp mem
    exact encodable' blk line isMem
  rw [fails_get_bind, shown'.blocks_eq]
  refine fails_bind (safe_resolveBlocks shown'.arranged.orderNodup (fun _ isMem => isMem)
    provided constants) fun _ _ _ => ?_
  refine fails_bind safe_checkGraph fun _ _ _ => ?_
  rw [fails_get_bind, fails_report_bind]
  exact fails_pure

end Pass

namespace Program

/-- What a program counts in a few bits fits there. Every destination of a sample has a channel,
which matters if cheaper encodings are looked for. Members have numbers in 32 bits, and so have
constants, which matters if constants are read instead of registers. -/
structure InRange (prog : Program) (spec : MachineSpec) (options : Options) : Prop where
  channels : options.relaxEncodings = true → ∀ key inst,
    prog.instructions.get? key = some inst → inst.opcode = .smp → inst.dests.length ≤ 8
  numbers : ∀ binding desc, prog.descriptors.get? binding = some desc →
    ∀ base ∈ desc.physical, base.toNat + desc.registers.length ≤ UInt32.size
  constants : options.substituteConstants = true → spec.constants.length ≤ UInt32.size

/-- The resolution of a program whose instructions were made by the rules, and which is in range,
ends with chains or with an error, unless all keys for instructions are in use. -/
theorem resolve_ends (built : program.Built IsMade) (inRange : program.InRange spec options) :
    (∃ resolution after,
      (resolve ⟨spec.target, options, level⟩).Yields program resolution after) ∨
    (∃ error, (resolve ⟨spec.target, options, level⟩ program).result = .error (.error error)) ∨
    ((resolve ⟨spec.target, options, level⟩).leaves program).Full := by
  obtain ⟨order, code, shown, isMade⟩ := built.shows
  have named : ∀ block ∈ order, ∃ name, program.blockNames.get? block = some name :=
    fun block inside => built.blocks_named block (shown.blocks_eq ▸ inside)
  have encodable : ∀ block, ∀ line ∈ code block, line.2.Encodable options.relaxEncodings :=
    fun block line inside => (isMade block line inside).encodable fun relaxes =>
      inRange.channels relaxes line.1 line.2 (shown.stored block line inside)
  have safe : (resolve ⟨spec.target, options, level⟩).SafeUnless Full program :=
    Pass.safe_resolve built.closed shown named encodable inRange.numbers inRange.constants
  cases ends : (resolve ⟨spec.target, options, level⟩ program).result with
  | ok resolution => exact .inl ⟨resolution, _, ends, rfl⟩
  | error failure =>
    cases failure with
    | error error => exact .inr (.inl ⟨error, rfl⟩)
    | breach cause => exact .inr (.inr (safe cause ends))

end Program

/-! ### Programs at the edge of their ranges -/

/-- A draft that leaves the channels and the swizzles to the rules is made by them. -/
theorem Draft.isMade {draft : Draft} {inst : Instruction} (ruled : draft.isRaw = false)
    (channel : draft.firstChannel = none) (lanes : draft.lanes = none)
    (makes : draft.make = .ok inst) : inst.IsMade := by
  obtain ⟨plain, isPlain, makes⟩ := except_bind_eq_ok.mp makes
  unfold Draft.plain at isPlain
  rw [if_neg (by simp [ruled])] at isPlain
  rw [lanes] at makes
  cases makes
  rw [channel]
  exact ⟨_, _, _, _, _, plain, _, isPlain, rfl⟩

/-- A program that samples into the first registers. -/
def sampling (width : Nat) (descs : List Descriptor) : Blueprint where
  blocks := [("entry", [{
    opcode := .smp
    dests := (List.range width).map fun number => .temp number.toUInt32
    sources := [.temp 20, .temp 21] }])]
  descriptors := descs

/-- The program with these parts. -/
def samplingProgram (width : Nat) (descs : List Descriptor) : Program :=
  (sampling width descs).assemble.leaves (.empty "main")

theorem built_samplingProgram {width : Nat} {descs : List Descriptor}
    (ran : (sampling width descs).assemble.Yields (.empty "main") ()
      (samplingProgram width descs)) : (samplingProgram width descs).Built IsMade := by
  refine Blueprint.built_assemble (.empty "main") (fun blk mem => ?_) (fun _ no => ?_) ran
  · rw [List.mem_singleton.mp mem]
    intro draft isDraft inst makes
    rw [List.mem_singleton.mp isDraft] at makes
    exact Draft.isMade rfl rfl rfl makes
  · cases no

namespace Program

/-- A sample of eight channels, with coordinates that have the last two numbers there are. -/
def edgeProgram : Program :=
  samplingProgram 8 [.input .primary (some 0xfffffffe) [.temp 20, .temp 21]]

theorem resolve_ends_edgeProgram :
    edgeProgram.Built IsMade ∧ edgeProgram.InRange .standard .standard ∧
      ((∃ resolution after, (resolve standardSetting).Yields edgeProgram resolution after) ∨
        (∃ error, (resolve standardSetting edgeProgram).result = .error (.error error)) ∨
        ((resolve standardSetting).leaves edgeProgram).Full) := by
  have built : edgeProgram.Built IsMade := built_samplingProgram ⟨rfl, rfl⟩
  have inRange : edgeProgram.InRange .standard .standard := by
    refine ⟨fun _ key instruction found _ => ?_, fun binding descriptor found => ?_,
      fun _ => by decide⟩
    · have all : ∀ entry ∈ edgeProgram.instructions.toList, entry.2.dests.length ≤ 8 := by
        decide +kernel
      exact all (key, instruction) (Arena.mem_toList.mpr found)
    · have only : edgeProgram.descriptors.toList =
          [(⟨0⟩, .input .primary (some 0xfffffffe) [.temp 20, .temp 21])] := rfl
      have listed := Arena.mem_toList.mpr found
      rw [only, List.mem_singleton] at listed
      cases listed
      intro base isBase
      cases isBase
      decide
  exact ⟨built, inRange, resolve_ends built inRange⟩

/-- The ninth channel of a sample breaks a rule, and so does a member behind the last number. -/
theorem breach_samplingProgram : (samplingProgram 9 []).Built IsMade ∧
      (resolve standardSetting (samplingProgram 9 [])).result = .error (.breach .overflow) ∧
    (samplingProgram 4 [.input .primary (some 0xffffffff) [.temp 20, .temp 21]]).Built
        IsMade ∧ (resolve standardSetting
        (samplingProgram 4 [.input .primary (some 0xffffffff) [.temp 20, .temp 21]])).result =
          .error (.breach .overflow) :=
  ⟨built_samplingProgram ⟨rfl, rfl⟩, by decide +kernel, built_samplingProgram ⟨rfl, rfl⟩,
    by decide +kernel⟩

end Program

end RegisterChains

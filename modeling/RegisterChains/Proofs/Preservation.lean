/-
This file proves that a resolution keeps what a program does. Seeding adds some copies of its own;
from there on, whatever repairs are made, the preamble followed by any blocks of the body leaves
every register that was in use with the same value. Registers that the repairs have taken may hold
anything.

The instructions have to be regular, and the body may not write a register that counts as uniform:
such a register is copied in the preamble, before it is written.

The registers that a resolution fills in the preamble are filled before the body runs and written
nowhere else, so wherever an instruction of the body reads one of them, it reads what the register
that it read before the resolution held when the body began. That is what this register holds there
as well, unless the body has written it.
-/

import RegisterChains.Proofs.Allocation
import RegisterChains.Proofs.Repair.Resolving
import RegisterChains.Proofs.Seeding.Bodies

namespace RegisterChains

open Arithmetic Instruction List MachineSpec Seeding

/-! ### Regular instructions -/

theorem Register.not_constant_of_virtual {r : Register} (virt : r.isVirtual = true) :
    r.isConstant = false := by
  unfold isVirtual at virt
  unfold isConstant
  rw [eq_of_beq virt]
  rfl

namespace Instruction

variable {inst : Instruction} {r replacement dest : Register}

theorem regular_move (source : Register) (writable : dest.isConstant = false) :
    (move dest source).Regular := by
  refine ⟨nodup_singleton dest, fun one mem => ?_, fun copies => ?_, fun sample => ?_,
    fun run mem => ?_⟩
  · rw [mem_singleton.mp mem]
    exact writable
  · rfl
  · cases sample
  · rw [runs_move] at mem
    cases mem

theorem mem_rename_dests (mem : dest ∈ (inst.rename r replacement).dests) :
    dest = replacement ∨ dest ∈ inst.dests := by
  obtain ⟨op, inside, rfl⟩ := mem_map.mp mem
  split
  · exact .inl rfl
  · exact .inr inside

/-- Another name for a register keeps an instruction regular, if the name was not used before. -/
theorem Regular.rename (regular : inst.Regular) (virt : replacement.isVirtual = true)
    (absent : replacement ∉ inst.dests) : (inst.rename r replacement).Regular := by
  have dests : (inst.rename r replacement).dests.length = inst.dests.length := length_map ..
  have sources : (inst.rename r replacement).sources.length = inst.sources.length := length_map ..
  have runs : runs (inst.rename r replacement) =
      runs inst := runs_congr rfl dests sources
  refine ⟨List.Nodup.map_on (fun one inside other inside' same => ?_) regular.distinct,
    fun dest mem => ?_, fun copies => ?_, fun sample i bound => ?_, fun run mem => ?_⟩
  · split at same <;> split at same
    · next isOne isOther => rw [isOne, isOther]
    · exact absurd (same ▸ inside') absent
    · exact absurd (same ▸ inside) absent
    · exact same
  · rcases mem_rename_dests mem with rfl | inside
    · exact Register.not_constant_of_virtual virt
    · exact regular.writable dest inside
  · rw [dests, sources]
    exact regular.paired copies
  · exact regular.channels sample i (dests ▸ bound)
  · exact regular.short run (runs ▸ mem)

end Instruction

/-- Seeding keeps lines regular, and writes no register that counts as uniform. -/
theorem Seeding.robust_regular {order : List BlockId} {uniforms : List Register}
    (hardware : ∀ r ∈ uniforms, r.isVirtual = false) : Robust fun blk inst => inst.Regular ∧
      (blk ∈ order → ∀ dest ∈ inst.dests, dest ∉ uniforms) := by
  have apart : ∀ r, r.isVirtual = true → r ∉ uniforms := by
    intro r virt mem
    cases virt.symm.trans (hardware r mem)
  refine ⟨fun blk dest source virt _ => ⟨regular_move source
      (Register.not_constant_of_virtual virt), fun _ one mem => ?_⟩,
    fun blk inst r replacement holds virt absent =>
      ⟨holds.1.rename virt fun inside => absent (mem_append_left _ inside),
        fun body dest mem => ?_⟩⟩
  · rw [mem_singleton.mp mem]
    exact apart dest virt
  · rcases mem_rename_dests mem with rfl | inside
    · exact apart dest virt
    · exact holds.2 body dest inside

namespace Pass

variable {origin : Origin} {spec : MachineSpec} {done : List BlockId} {pass : Pass}
  {stage : Walk.Stage} {arith : Arithmetic}

/-- States that agree at the start of some blocks agree at their end. -/
theorem Derived.agrees_blocks (derived : Derived origin spec done pass stage)
    (regular : origin.Regular spec) (holds : arith.Holds spec) {blocks : List BlockId}
    (walked : ∀ blk ∈ blocks, blk ∈ origin.order ∧ blk ∈ done) {cs other : Contents}
    (agrees : origin.Agrees cs other) (held : arith.Held stage.copies other) :
    origin.Agrees (arith.execute (blocks.flatMap origin.code) cs)
      (arith.execute (blocks.flatMap stage.code) other) := by
  induction blocks generalizing cs other with
  | nil => exact agrees
  | cons blk rest ih =>
    obtain ⟨body, isDone⟩ := walked blk mem_cons_self
    rw [flatMap_cons, flatMap_cons, execute_append, execute_append]
    exact ih (fun blk mem => walked blk (mem_cons_of_mem _ mem))
      (derived.follows regular arith holds blk isDone cs other agrees held)
      (regular.held body derived.hoisted (derived.stems blk body) held)

end Pass

namespace Program

variable {spec : MachineSpec} {options : Options} {level : Option Level} {program after : Program}
  {resolution : Resolution}

/-- The preamble and any blocks of the body do what they did in the seeded program, as far as the
registers are concerned that it knows. -/
theorem path_agrees (built : program.Built Regular)
    (hardware : ∀ register ∈ program.uniforms, register.isVirtual = false)
    (unwritten : ∀ body, program.body = .ok body → ∀ instruction ∈ body,
      ∀ dest ∈ instruction.dests, dest ∉ program.uniforms)
    (small : spec.constants.length ≤ UInt32.size)
    (yields : (resolve ⟨spec.target, options, level⟩).Yields program resolution after) :
    ∃ seeded, seedAll.Yields (.start spec.target program) () seeded ∧
      ∀ blocks, (∀ block ∈ blocks, block ∈ seeded.program.blocks) →
        ∃ code code', seeded.program.path blocks = .ok code ∧ after.path blocks = .ok code' ∧
          ∀ arithmetic : Arithmetic, arithmetic.Holds spec → ∀ contents register,
            seeded.program.Noted register →
            arithmetic.run code' contents register = arithmetic.run code contents register := by
  obtain ⟨seeded, walked, resolves⟩ := resolve_yields yields
  obtain ⟨_, edits, _⟩ := seedAll_yields built.closed resolves.seeds
  obtain ⟨order, code, shown, allowed⟩ := built.shows
  have written : ∀ block, ∀ line ∈ code block, line.2.Regular ∧
      (block ∈ order → ∀ dest ∈ line.2.dests, dest ∉ program.uniforms) := by
    refine fun block line member => ⟨allowed block line member, fun body => ?_⟩
    refine unwritten _ shown.body_eq line.2 (mem_map_of_mem ?_)
    exact mem_flatMap.mpr ⟨block, body, member⟩
  obtain ⟨code', shown', _, uniforms, keeps⟩ := edits.shows shown
  have lines := keeps (robust_regular hardware) built.closed written
  have closed := edits.closed built.closed
  obtain ⟨stage, derived⟩ := resolves.derives built shown' closed
  have regular : (shown'.origin closed).Regular spec := by
    refine ⟨fun block _ line member => (lines block line member).1, ?_, small⟩
    rintro block body register ⟨line, member, isDest⟩
    obtain ⟨isRegular, apart⟩ := lines block line member
    show (register.isConstant || seeded.program.uniforms.contains register) = false
    rw [isRegular.writable register isDest, uniforms, Bool.false_or, Bool.eq_false_iff]
    exact fun inside => apart body register isDest (contains_iff_mem.mp inside)
  refine ⟨seeded, resolves.seeds, fun blocks inside => ?_⟩
  rw [shown'.blocks_eq] at inside
  refine ⟨_, _, (shown'.origin closed).path_eq inside, resolves.result ▸ derived.path_eq inside,
    fun arithmetic holds contents register noted => ?_⟩
  rw [run_append, run_append, run_append]
  obtain ⟨agrees, held⟩ := derived.hoisted.run arithmetic
    (arithmetic.run (shown'.origin closed).prelude contents)
  exact derived.agrees_blocks regular holds (fun block member => ⟨inside block member, by
    simpa using inside block member⟩) agrees held register noted

/-! ### A copy in the preamble -/

/-- A program is built of regular instructions if each draft gives one. -/
theorem built_of_regular {blueprint : Blueprint}
    (regular : (blueprint.blocks.flatMap Prod.snd ++ blueprint.preamble.getD []).all (fun draft =>
      draft.make.toOption.all fun inst => decide inst.Regular) = true)
    (ends : blueprint.assemble.Yields (.empty "main") () program) :
    program.Built Regular := by
  rw [all_eq_true] at regular
  have allows : ∀ drafts : List Draft,
      (∀ draft ∈ drafts, draft ∈ blueprint.blocks.flatMap Prod.snd ++ blueprint.preamble.getD []) →
      Blueprint.Allows Regular drafts := by
    intro drafts inside draft mem inst made
    have holds := regular draft (inside draft mem)
    rw [made] at holds
    exact of_decide_eq_true holds
  refine Blueprint.built_assemble (.empty "main") (fun blk mem => allows blk.2 ?_)
    (fun drafts isPreamble => allows drafts ?_) ends
  · exact fun draft inside => mem_append_left _ (mem_flatMap.mpr ⟨blk, mem, inside⟩)
  · intro draft inside
    rw [Option.mem_def.mp isPreamble]
    exact mem_append_right _ inside

/-- A sample that reads a register that counts as uniform, behind a copy into some register. -/
def uniformSample (uniform dest : Register) : Blueprint where
  blocks := [("entry", [{ opcode := .mov, dests := [dest], sources := [.temp 5] },
    { opcode := .smp, dests := [.temp 0, .temp 1], sources := [uniform, .temp 2] }])]
  preamble := some []
  uniforms := [uniform]

/-- The program with these parts. -/
def uniformProgram (uniform dest : Register) : Program :=
  (uniformSample uniform dest).assemble.leaves (.empty "main")

/-- What its resolution leaves. -/
def uniformResolved (uniform dest : Register) : Program :=
  (resolve standardSetting).leaves (uniformProgram uniform dest)

/-- The sample in it, at some coordinate. -/
def uniformRead (coordinate : Register) : Instruction :=
  .pairSample [.temp 0, .temp 1] [coordinate, .temp 2]

/-- An output register is read through a copy in the preamble, and all registers in use end up with
the same values. -/
theorem path_agrees_uniform : (uniformProgram (.output 0) (.temp 4)).Built Regular ∧
      (∃ resolution, (resolve standardSetting).Yields (uniformProgram (.output 0) (.temp 4))
        resolution (uniformResolved (.output 0) (.temp 4))) ∧
      (uniformProgram (.output 0) (.temp 4)).path [⟨0⟩] =
        .ok [.move (.temp 4) (.temp 5), uniformRead (.output 0)] ∧
      (uniformResolved (.output 0) (.temp 4)).path [⟨0⟩] =
        .ok [.move (.temp 6) (.output 0), .move (.temp 4) (.temp 5), uniformRead (.temp 6)] ∧
      ∀ arithmetic : Arithmetic, arithmetic.Holds .standard → ∀ contents register,
        (register.isVirtual = true → register.number < 6) →
        arithmetic.run [.move (.temp 6) (.output 0), .move (.temp 4) (.temp 5),
            uniformRead (.temp 6)] contents register =
          arithmetic.run [.move (.temp 4) (.temp 5), uniformRead (.output 0)] contents
            register := by
  have built : (uniformProgram (.output 0) (.temp 4)).Built Regular :=
    built_of_regular (by decide +kernel) ⟨rfl, rfl⟩
  have path : (uniformProgram (.output 0) (.temp 4)).path [⟨0⟩] =
      .ok [.move (.temp 4) (.temp 5), uniformRead (.output 0)] := by decide +kernel
  have path' : (uniformResolved (.output 0) (.temp 4)).path [⟨0⟩] =
      .ok [.move (.temp 6) (.output 0), .move (.temp 4) (.temp 5), uniformRead (.temp 6)] := by
    decide +kernel
  obtain ⟨resolution, yields⟩ : ∃ resolution, (resolve standardSetting).Yields
      (uniformProgram (.output 0) (.temp 4)) resolution (uniformResolved (.output 0) (.temp 4)) :=
    Step.yields_leaves (by decide +kernel)
  have unwritten : ∀ body, (uniformProgram (.output 0) (.temp 4)).body = .ok body →
      ∀ instruction ∈ body, ∀ dest ∈ instruction.dests,
        dest ∉ (uniformProgram (.output 0) (.temp 4)).uniforms := by
    intro body isBody
    have known : (uniformProgram (.output 0) (.temp 4)).body =
        .ok [.move (.temp 4) (.temp 5), uniformRead (.output 0)] := by decide +kernel
    cases known.symm.trans isBody
    decide +kernel
  refine ⟨built, ⟨resolution, yields⟩, path, path',
    fun arithmetic holds contents register noted => ?_⟩
  obtain ⟨seeded, ⟨_, rfl⟩, agrees⟩ :=
    path_agrees built (by decide +kernel) unwritten (by decide) yields
  obtain ⟨code, code', isCode, isCode', same⟩ := agrees [⟨0⟩] (by decide +kernel)
  cases path'.symm.trans isCode'
  cases path.symm.trans isCode
  exact same arithmetic holds contents register noted

/-- An output register that is written and counts as uniform is copied in the preamble, before it is
written. -/
theorem stale_uniform_sample : (uniformProgram (.output 0) (.output 0)).Built Regular ∧
      (∀ register ∈ (uniformProgram (.output 0) (.output 0)).uniforms, register.isVirtual = false) ∧
      (∃ resolution, (resolve standardSetting).Yields (uniformProgram (.output 0) (.output 0))
        resolution (uniformResolved (.output 0) (.output 0))) ∧
      ∃ seeded code code', seedAll.Yields (.start standardSetting.target
          (uniformProgram (.output 0) (.output 0))) () seeded ∧
        seeded.program.path [⟨0⟩] = .ok code ∧
        (uniformResolved (.output 0) (.output 0)).path [⟨0⟩] = .ok code' ∧
        ∃ arithmetic : Arithmetic, arithmetic.Holds .standard ∧ ∃ contents,
          arithmetic.run code' contents (.temp 0) ≠ arithmetic.run code contents (.temp 0) := by
  refine ⟨built_of_regular (by decide +kernel) ⟨rfl, rfl⟩, by decide +kernel,
    Step.yields_leaves (by decide +kernel), _,
    [.move (.output 0) (.temp 5), uniformRead (.output 0)],
    [.move (.temp 6) (.output 0), .move (.output 0) (.temp 5), uniformRead (.temp 6)], ⟨rfl, rfl⟩,
    by decide +kernel, by decide +kernel,
    ⟨fun number => (standard.constantValue number).getD 0, fun _ _ => 0, fun _ _ => 0,
      fun _ _ => 0, fun coordinates _ => coordinates.headD 0⟩, fun number value isValue => ?_,
    fun register => register.number, by decide⟩
  show (standard.constantValue number).getD 0 = value
  rw [isValue]
  rfl

end Program

/-! ### Registers that are filled in the preamble -/

namespace Pass

open Walk

variable {origin : Origin} {spec : MachineSpec} {done : List BlockId} {pass : Pass} {stage : Stage}
  {front : List Line} {k : InstructionId} {inst : Instruction}
  {pair : Register × Register} {i : Nat}

section

variable (derived : Derived origin spec done pass stage)

include derived

/-- The lines of the body stem from the origin. -/
theorem Derived.stems_body {line : Line} (member : line ∈ origin.order.flatMap stage.code) :
    ∃ blk ∈ origin.order, origin.Stems pass.program stage.copies blk line := by
  obtain ⟨blk, body, mem⟩ := mem_flatMap.mp member
  exact ⟨blk, body, derived.stems blk body line mem⟩

/-- Who reads a register that is filled in the preamble read the value before. -/
theorem Derived.replaced (member : (k, inst) ∈ origin.order.flatMap stage.code)
    (isCopy : pair ∈ stage.copies) (reads : inst.sources[i]? = some pair.2) :
    ∃ orig, (k, orig) ∈ origin.order.flatMap origin.code ∧ orig.sources[i]? = some pair.1 := by
  obtain ⟨blk, body, stems⟩ := derived.stems_body member
  obtain ⟨orig, mem, isOperand⟩ := stems.reads i pair isCopy reads
  exact ⟨orig, mem_flatMap.mpr ⟨blk, body, mem⟩, isOperand⟩

/-- A register that is filled in the preamble keeps its value along the body. -/
theorem Derived.kept (mem : ∀ line ∈ front, line ∈ origin.order.flatMap stage.code)
    (isCopy : pair ∈ stage.copies) (arith : Arithmetic) (cs : Contents) :
    arith.execute front cs pair.2 = cs pair.2 := by
  refine run_of_notMem fun inst member written => ?_
  obtain ⟨line, isLine, rfl⟩ := mem_map.mp member
  obtain ⟨_, _, stems⟩ := derived.stems_body (mem line isLine)
  exact (stems.writes pair.2 written).1 pair isCopy rfl

end

end Pass

namespace Program

open Walk

variable {spec : MachineSpec} {options : Options} {level : Option Level}
  {allowed : Instruction → Prop} {program after : Program} {resolution : Resolution}

/-- Where an instruction of the body reads a register that the resolution fills in the preamble, it
read another register before, and it reads what this register held when the body began. If the body
has not written the register in front of the instruction, the two hold the same there. -/
theorem preamble_copies_hold (built : program.Built allowed)
    (yields : (resolve ⟨spec.target, options, level⟩).Yields program resolution after) :
    ∃ (seeded : Pass) (order : List BlockId) (code code' : BlockId → List Line)
      (prelude prelude' : List Instruction) (copies : List (Register × Register)),
      Seeding.seedAll.Yields (.start spec.target program) () seeded ∧
      seeded.program.Shows order code ∧ after.Shows order code' ∧
      seeded.program.path [] = .ok prelude ∧ after.path [] = .ok prelude' ∧
      prelude' = prelude ++ copies.map hoistedMove ∧
      ∀ front key instruction back, order.flatMap code' = front ++ (key, instruction) :: back →
        ∀ (index : Nat) pair, pair ∈ copies → instruction.sources[index]? = some pair.2 →
          (∃ original, (key, original) ∈ order.flatMap code ∧
            original.sources[index]? = some pair.1) ∧ ∀ (arithmetic : Arithmetic) contents,
            arithmetic.execute front (arithmetic.run prelude' contents) pair.2 =
              arithmetic.read (arithmetic.run prelude' contents) pair.1 ∧
            ((∀ line ∈ front, pair.1 ∉ line.2.dests) →
              arithmetic.execute front (arithmetic.run prelude' contents) pair.2 =
                arithmetic.read (arithmetic.execute front (arithmetic.run prelude' contents))
                  pair.1) := by
  obtain ⟨seeded, walked, resolves⟩ := resolve_yields yields
  have closed := (Seeding.seedAll_yields built.closed resolves.seeds).1.closed
  obtain ⟨order, _, shown, _⟩ := built.shows
  obtain ⟨code, shown'⟩ := (Seeding.steady_of_seedAll resolves.seeds).shown shown
  obtain ⟨stage, derived⟩ := resolves.derives built shown' closed
  have none : ∀ block ∈ ([] : List BlockId), block ∈ (shown'.origin closed).order :=
    fun _ impossible => absurd impossible not_mem_nil
  have before := (shown'.origin closed).path_eq none
  have path := derived.path_eq none
  rw [flatMap_nil, map_nil, append_nil] at before path
  refine ⟨seeded, order, code, stage.code, _, _, stage.copies, resolves.seeds, shown',
    resolves.result ▸ derived.shown, before, resolves.result ▸ path, rfl,
    fun front key instruction back split index pair isCopy reads => ⟨?_, fun arithmetic contents =>
    ?_⟩⟩
  · exact derived.replaced (split ▸ mem_append_cons_self) isCopy reads
  · have kept := derived.kept (fun line member => split ▸ mem_append_left _ member) isCopy
      arithmetic (arithmetic.run ((shown'.origin closed).prelude ++ stage.copies.map hoistedMove)
        contents)
    have held := (derived.hoisted.run arithmetic
      (arithmetic.run (shown'.origin closed).prelude contents)).2 pair isCopy
    rw [← run_append] at held
    refine ⟨kept.trans held, fun unwritten => (kept.trans held).trans ?_⟩
    refine (read_run_of_notMem fun instruction member written => ?_).symm
    obtain ⟨line, isLine, rfl⟩ := mem_map.mp member
    exact unwritten line isLine written

/-! ### A uniform register that is written -/

/-- Two samples that read a register that is uniform, but written at the start of the body. -/
def overwrittenUniform : Blueprint where
  blocks := [("entry", [{ opcode := .mov, dests := [.temp 5], sources := [.temp 9] },
    { opcode := .smp, dests := [.temp 0, .temp 1], sources := [.temp 3, .temp 5] },
    { opcode := .smp, dests := [.temp 6, .temp 7], sources := [.temp 2, .temp 5] }])]
  preamble := some []
  uniforms := [.temp 5]

/-- The program with these parts. -/
def overwrittenProgram : Program := overwrittenUniform.assemble.leaves (.empty "main")

theorem built_overwrittenProgram : overwrittenProgram.Built fun _ => True :=
  Blueprint.built_leaves rfl

/-- What its resolution leaves. -/
def overwrittenResolved : Program := (resolve standardSetting).leaves overwrittenProgram

theorem resolve_overwrittenProgram :
    ∃ resolution, (resolve standardSetting).Yields overwrittenProgram resolution
      overwrittenResolved := Step.yields_leaves (by decide +kernel)

theorem path_overwrittenResolved :
    overwrittenResolved.path [] = .ok [.move (.temp 10) (.temp 5)] := by decide +kernel

theorem body_overwrittenResolved : overwrittenResolved.body = .ok [.move (.temp 5) (.temp 9),
    .pairSample [.temp 0, .temp 1] [.temp 3, .temp 5],
    .pairSample [.temp 6, .temp 7] [.temp 2, .temp 10]] := by decide +kernel

/-- The second sample reads a register that is filled in the preamble, and that holds what the
uniform register held when the body began. -/
theorem preamble_copies_hold_overwritten :
    (∃ resolution, (resolve standardSetting).Yields overwrittenProgram resolution
      overwrittenResolved) ∧ overwrittenResolved.path [] = .ok [.move (.temp 10) (.temp 5)] ∧
      overwrittenResolved.body = .ok [.move (.temp 5) (.temp 9),
        .pairSample [.temp 0, .temp 1] [.temp 3, .temp 5],
        .pairSample [.temp 6, .temp 7] [.temp 2, .temp 10]] ∧ ∀ (arithmetic : Arithmetic) contents,
        arithmetic.run [.move (.temp 5) (.temp 9),
            .pairSample [.temp 0, .temp 1] [.temp 3, .temp 5]]
            (arithmetic.run [.move (.temp 10) (.temp 5)] contents) (.temp 10) =
          arithmetic.read (arithmetic.run [.move (.temp 10) (.temp 5)] contents) (.temp 5) := by
  obtain ⟨resolution, yields⟩ := resolve_overwrittenProgram
  refine ⟨⟨resolution, yields⟩, path_overwrittenResolved, body_overwrittenResolved, ?_⟩
  obtain ⟨seeded, order, code, code', prelude, _, copies, ⟨_, rfl⟩, _, shown, before, path, rfl,
    holds⟩ := preamble_copies_hold built_overwrittenProgram yields
  obtain rfl : [] = prelude := by
    refine Except.ok.inj (Eq.trans ?_ before)
    decide +kernel
  have isPrelude : copies.map hoistedMove = [.move (.temp 10) (.temp 5)] :=
    Except.ok.inj (path.symm.trans path_overwrittenResolved)
  obtain ⟨pair, rfl, isMove⟩ := map_eq_singleton_iff.mp isPrelude
  obtain ⟨value, holder⟩ := pair
  cases isMove
  have isBody : (order.flatMap code').map Prod.snd = _ :=
    Except.ok.inj (shown.body_eq.symm.trans body_overwrittenResolved)
  obtain ⟨first, rest, isRest, isFirst, others⟩ := map_eq_cons_iff.mp isBody
  obtain ⟨second, rest', rfl, isSecond, others'⟩ := map_eq_cons_iff.mp others
  obtain ⟨⟨key, sample⟩, rfl, rfl⟩ := map_eq_singleton_iff.mp others'
  intro arithmetic contents
  have held := ((holds [first, second] key _ [] isRest 1 _ mem_cons_self rfl).2 arithmetic
    contents).1
  unfold execute at held
  rwa [map_cons, map_singleton, isFirst, isSecond] at held

/-- The second sample reads a register that does not hold what the uniform one holds there. -/
theorem stale_preamble_copy : overwrittenProgram.Built (fun _ => True) ∧
      (∃ resolution, (resolve standardSetting).Yields overwrittenProgram resolution
        overwrittenResolved) ∧ overwrittenProgram.body = .ok [.move (.temp 5) (.temp 9),
        .pairSample [.temp 0, .temp 1] [.temp 3, .temp 5],
        .pairSample [.temp 6, .temp 7] [.temp 2, .temp 5]] ∧
      overwrittenResolved.path [] = .ok [.move (.temp 10) (.temp 5)] ∧
      overwrittenResolved.body = .ok [.move (.temp 5) (.temp 9),
        .pairSample [.temp 0, .temp 1] [.temp 3, .temp 5],
        .pairSample [.temp 6, .temp 7] [.temp 2, .temp 10]] ∧
      ∃ (arithmetic : Arithmetic) (contents reached : Contents),
        reached = arithmetic.run [.move (.temp 10) (.temp 5), .move (.temp 5) (.temp 9),
          .pairSample [.temp 0, .temp 1] [.temp 3, .temp 5]] contents ∧
        reached (.temp 10) ≠ reached (.temp 5) := by
  refine ⟨built_overwrittenProgram, resolve_overwrittenProgram, by decide +kernel,
    path_overwrittenResolved, body_overwrittenResolved,
    ⟨id, fun _ _ => 0, fun _ _ => 0, fun _ _ => 0, fun _ _ => 0⟩, fun register => register.number,
    _, rfl, ?_⟩
  decide

end Program

end RegisterChains

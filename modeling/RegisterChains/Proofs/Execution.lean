/-
This file gives instructions their meaning. A state says what every register holds. An
instruction reads all of its operands before it writes; copies are made operand by operand,
and what the other opcodes compute is left open: any functions of the operands will do.

Two facts carry what is proved about code that was changed. What is not written stays, and a
state in which registers have other names is changed in the same way by the code with those
names.

What is known of copies is true. A copy is forgotten as soon as one of the two registers is
written, and it is remembered when it has been made; so along any instructions that are followed,
every register that is known to hold a copy holds the value.
-/

import RegisterChains.Program
import RegisterChains.Proofs.Cache

namespace RegisterChains

open List

variable {code : List Instruction} {inst : Instruction} {writes : List (Register × UInt32)}
  {r : Register}

/-- What each register holds. -/
abbrev Contents := Register → UInt32

/-- What the constant registers hold, and what the opcodes compute that do not copy. -/
structure Arithmetic where
  constant : UInt32 → UInt32
  add : UInt32 → UInt32 → UInt32
  mul : UInt32 → UInt32 → UInt32
  dot : List UInt32 → List UInt32 → UInt32
  /-- One channel of the sample at some coordinates. -/
  sample : List UInt32 → Nat → UInt32

/-- The values that the lanes of a swizzle read. -/
def Swizzle.read (swizzle : Swizzle) (values : List UInt32) : List UInt32 :=
  swizzle.selection.map fun lane => (values[lane.toNat]?).getD 0

/-- The values of a run as the instruction reads them. -/
def Instruction.lanes (inst : Instruction) (slot : Nat) (values : List UInt32) : List UInt32 :=
  (inst.swizzles[slot]?).elim values (·.read values)

/-- Writes a register. -/
def Contents.set (cs : Contents) (r : Register) (v : UInt32) : Contents :=
  Function.update cs r v

/-- Writes registers one after the other. -/
def Contents.write (cs : Contents) : List (Register × UInt32) → Contents
  | [] => cs
  | (r, v) :: rest => (cs.set r v).write rest

namespace Arithmetic

/-- What an operand reads as. -/
def read (arith : Arithmetic) (cs : Contents) (r : Register) : UInt32 :=
  match r.kind with
  | .immediate => r.number
  | .constant => arith.constant r.number
  | .temp | .primary | .output => cs r

/-- What an instruction writes to its destinations, given the values of its operands. -/
def results (arith : Arithmetic) (inst : Instruction) (values : List UInt32) : List UInt32 :=
  let v := fun i => (values[i]?).getD 0
  let half := values.length / 2
  match inst.opcode with
  | .mov => values.take 1
  | .pack | .vmov => values
  | .fadd => [arith.add (v 0) (v 1)]
  | .fmul => [arith.mul (v 0) (v 1)]
  | .dp =>
    [arith.dot (inst.lanes 0 (values.take half)) (inst.lanes 1 ((values.drop half).take half))]
  | .smp =>
    (List.range inst.dests.length).map fun i =>
      arith.sample (inst.lanes 0 values) (inst.firstChannel.toNat + i)
  | .wdf | .nop => []

/-- The state after an instruction. -/
def step (arith : Arithmetic) (cs : Contents) (inst : Instruction) : Contents :=
  cs.write (inst.dests.zip (arith.results inst (inst.sources.map (arith.read cs))))

/-- The state after some instructions. -/
def run (arith : Arithmetic) (code : List Instruction) (cs : Contents) : Contents :=
  code.foldl arith.step cs

end Arithmetic

/-- The instructions of the body in order. -/
def Program.body (prog : Program) : Except Breach (List Instruction) := do
  return (← prog.blocks.mapM prog.instructionsOf).flatten

/-- The instructions of the preamble, if there is one, and of some blocks. -/
def Program.path (prog : Program) (blocks : List BlockId) : Except Breach (List Instruction) := do
  return (← (prog.preamble.toList ++ blocks).mapM prog.instructionsOf).flatten

/-! ### What is not written -/

@[simp] theorem Contents.set_self (cs : Contents) (r : Register) (v : UInt32) :
    cs.set r v r = v := Function.update_self ..

theorem Contents.set_of_ne (cs : Contents) {other : Register} (v : UInt32) (apart : other ≠ r) :
    cs.set r v other = cs other :=
  Function.update_of_ne apart ..

theorem Contents.write_of_notMem {cs : Contents} (absent : r ∉ writes.map Prod.fst) :
    cs.write writes r = cs r := by
  induction writes generalizing cs with
  | nil => rfl
  | cons entry rest ih =>
    rw [map_cons, mem_cons, not_or] at absent
    exact (ih absent.2).trans (cs.set_of_ne entry.2 absent.1)

namespace Arithmetic

variable {arith : Arithmetic} {cs : Contents} {r : Register}

theorem read_of_virtual (virt : r.isVirtual = true) : arith.read cs r = cs r := by
  unfold Register.isVirtual at virt
  unfold read
  rw [eq_of_beq virt]

theorem read_of_not_constant (changes : r.isConstant = false) : arith.read cs r = cs r := by
  unfold Register.isConstant at changes
  unfold read
  cases kind : r.kind with
  | immediate | constant =>
    rw [kind] at changes
    cases changes
  | temp | primary | output => rfl

theorem step_of_notMem (absent : r ∉ inst.dests) : arith.step cs inst r = cs r := by
  refine Contents.write_of_notMem fun mem => absent ?_
  obtain ⟨entry, listed, rfl⟩ := mem_map.mp mem
  exact (of_mem_zip listed).1

/-- A register that is not written reads as before. -/
theorem read_step_of_notMem (absent : r ∉ inst.dests) :
    arith.read (arith.step cs inst) r = arith.read cs r := by
  unfold read
  rw [step_of_notMem absent]

theorem step_move (dest source : Register) : arith.step cs (.move dest source) =
      cs.set dest (arith.read cs source) := rfl

theorem run_append (code rest : List Instruction) :
    arith.run (code ++ rest) cs = arith.run rest (arith.run code cs) :=
  foldl_append

theorem run_of_notMem (absent : ∀ inst ∈ code, r ∉ inst.dests) : arith.run code cs r = cs r := by
  induction code generalizing cs with
  | nil => rfl
  | cons inst rest ih =>
    have later : arith.run rest (arith.step cs inst) r = _ :=
      ih fun one mem => absent one (mem_cons_of_mem _ mem)
    exact later.trans (step_of_notMem (absent inst mem_cons_self))

/-- A register that no instruction writes reads as before. -/
theorem read_run_of_notMem (absent : ∀ inst ∈ code, r ∉ inst.dests) :
    arith.read (arith.run code cs) r = arith.read cs r := by
  unfold read
  rw [run_of_notMem absent]

end Arithmetic

/-! ### Other names -/

/-- The registers of a set hold what the registers with their other names hold. -/
def Contents.Mirrors (cs other : Contents) (named : Register → Prop)
    (rename : Register → Register) : Prop :=
  ∀ r, named r → cs r = other (rename r)

/-- The instruction with other names for its operands. -/
def Instruction.mapped (inst : Instruction) (rename : Register → Register) : Instruction :=
  { inst with
    dests := inst.dests.map rename
    sources := inst.sources.map rename }

section Mirrors

variable {cs other : Contents} {named : Register → Prop} {rename : Register → Register}

theorem Contents.Mirrors.write (mirrors : cs.Mirrors other named rename)
    (injective : ∀ a b, named a → named b → rename a = rename b → a = b)
    (mem : ∀ entry ∈ writes, named entry.1) : (cs.write writes).Mirrors
      (other.write (writes.map fun entry => (rename entry.1, entry.2))) named rename := by
  induction writes generalizing cs other with
  | nil => exact mirrors
  | cons entry rest ih =>
    refine ih (fun r isNamed => ?_) fun one listed => mem one (mem_cons_of_mem _ listed)
    by_cases same : r = entry.1
    · rw [same, Contents.set_self, Contents.set_self]
    · have apart : rename r ≠ rename entry.1 := fun equal =>
        same (injective _ _ isNamed (mem entry mem_cons_self) equal)
      rw [cs.set_of_ne _ same, other.set_of_ne _ apart]
      exact mirrors r isNamed

/-- Other names that are names of registers of the same kind read alike. -/
theorem Contents.Mirrors.read (mirrors : cs.Mirrors other named rename) (arith : Arithmetic)
    (isNamed : named r) (kind : rename r = r ∨ r.isVirtual = true ∧ (rename r).isVirtual = true) :
    arith.read cs r = arith.read other (rename r) := by
  rcases kind with same | ⟨virt, virtual'⟩
  · have held := mirrors r isNamed
    rw [same] at held ⊢
    unfold Arithmetic.read
    rw [held]
  · rw [Arithmetic.read_of_virtual virt, Arithmetic.read_of_virtual virtual']
    exact mirrors r isNamed

variable (arith : Arithmetic)
  (injective : ∀ a b, named a → named b → rename a = rename b → a = b) (kind : ∀ r, rename r = r ∨
    r.isVirtual = true ∧ (rename r).isVirtual = true)

include injective kind

theorem Contents.Mirrors.step (mirrors : cs.Mirrors other named rename)
    (isMem : ∀ op ∈ inst.dests ++ inst.sources, named op) :
    (arith.step cs inst).Mirrors (arith.step other (inst.mapped rename)) named rename := by
  have values : (inst.sources.map rename).map (arith.read other) =
      inst.sources.map (arith.read cs) := by
    rw [map_map]
    refine map_congr_left fun source mem => ?_
    exact (mirrors.read arith (isMem source (mem_append_right _ mem)) (kind source)).symm
  have results : ∀ values, arith.results (inst.mapped rename) values =
      arith.results inst values := by
    intro values
    unfold Arithmetic.results Instruction.mapped
    simp only [length_map]
    rfl
  unfold Arithmetic.step
  rw [results]
  show (cs.write _).Mirrors (other.write ((inst.dests.map rename).zip
    (arith.results inst ((inst.sources.map rename).map (arith.read other))))) named rename
  rw [values, zip_map_left]
  refine mirrors.write injective fun entry listed => ?_
  exact isMem entry.1 (mem_append_left _ (of_mem_zip listed).1)

/-- Code with other names changes a state with other names in the same way. -/
theorem Contents.Mirrors.run (mirrors : cs.Mirrors other named rename)
    (mem : ∀ inst ∈ code, ∀ op ∈ inst.dests ++ inst.sources, named op) :
    (arith.run code cs).Mirrors (arith.run (code.map (·.mapped rename)) other) named rename := by
  induction code generalizing cs other with
  | nil => exact mirrors
  | cons inst rest ih =>
    exact ih (mirrors.step arith injective kind (mem inst mem_cons_self))
      fun one listed => mem one (mem_cons_of_mem _ listed)

end Mirrors

/-! ### Known copies -/

namespace Tracking

variable {track after : Tracking} {arith : Arithmetic} {cs : Contents}
  {origin : Option InstructionId}
  {result : Option CopyId} {dest v : Register} {owned : Bool} {place : UInt32}

/-- The registers that are known to hold copies hold them in a state. -/
def Truthful (track : Tracking) (arith : Arithmetic) (cs : Contents) : Prop :=
  ∀ v dest owned, track.Knows v dest owned → dest.isVirtual = true ∧ cs dest = arith.read cs v

theorem truthful_empty (blk : BlockId) (g : ChainGraph) : Truthful ⟨.empty blk, g⟩ arith cs := by
  rintro v dest owned ⟨id, record, found, _⟩
  simp [CopyCache.empty] at found

section

variable (truthful : track.Truthful arith cs)

include truthful

/-- After an instruction, what has not been forgotten is still true. -/
theorem Truthful.step (sound : track.Sound) (inst : Instruction) :
    (inst.dests.foldl Tracking.noteDef track).Truthful arith (arith.step cs inst) := by
  intro v dest owned known
  obtain ⟨pre, valueKept, destKept⟩ := (sound.knows_noteDefs inst.dests).mp known
  rw [Arithmetic.read_step_of_notMem valueKept, Arithmetic.step_of_notMem destKept]
  exact truthful v dest owned pre

theorem Truthful.noteUses (sound : track.Sound) (regs : List Register) (place : UInt32) :
    (regs.foldl (fun track r => track.noteUse r place)
      track).Truthful arith cs := fun v dest owned known =>
  truthful v dest owned (((sound.noteUses regs place).2 v dest owned).mp known)

theorem Truthful.recordCopy (sound : track.Sound)
    (holds : dest.isVirtual = true → cs dest = arith.read cs v)
    (ran : (recordCopy v dest origin place owned).Yields track result after) :
    after.Truthful arith cs := by
  intro one other mode known
  have records := sound.recordCopy ran
  have virt := records.tends.sound.virtual_of_knows known
  rcases records.of_knows known with old | ⟨rfl, rfl, _⟩
  · exact truthful one other mode old
  · exact ⟨virt, holds virt⟩

end

end Tracking

end RegisterChains

/-
This file says which numbers a program hands out. Calls of every kind build a program and work on
it, some of them are refused, and an account is kept of the ranges handed out and of the registers
that came in. Appended instructions and declared descriptors are noted: a range starts where the
noted registers and the ranges before it end. Instructions that are pushed, prepended, inserted or
put in the place of another one are not noted, so their registers can be handed out again.
-/

import RegisterChains.Proofs.Program.Operations

namespace RegisterChains

namespace Program

open List

open Step

variable {prog mid after : Program} {regs ops : List Register} {inst : Instruction} {count : Nat}
  {failure : Failure} {desc : Descriptor} {last : UInt32} {blk : BlockId} {α β : Type}

/-- The numbers from the first one up to, and without, the second. -/
abbrev Range := UInt32 × UInt32

/-- A register is named by an instruction or by a descriptor. -/
def Names (prog : Program) (r : Register) : Prop :=
  (∃ k inst, prog.instructions.get? k = some inst ∧ r ∈ inst.dests ++ inst.sources) ∨
  ∃ k desc, prog.descriptors.get? k = some desc ∧ r ∈ desc.registers

/-! ### Calls that hand out nothing -/

/-- A program in which the next fresh number is the same, and some more registers may be named. -/
structure Enters (prog after : Program) (regs : List Register) : Prop where
  nextTemp : after.nextTemp = prog.nextTemp
  names : ∀ reg, after.Names reg → prog.Names reg ∨ reg ∈ regs

namespace Enters

variable {regs others : List Register}

/-- Nothing new is named where instructions and descriptors are as before. -/
theorem of_eq (instructions : after.instructions = prog.instructions)
    (descs : after.descriptors = prog.descriptors) (nextTemp : after.nextTemp = prog.nextTemp) :
    prog.Enters after [] where
  nextTemp := nextTemp
  names r named := by
    unfold Names at named
    rw [instructions, descs] at named
    exact .inl named

theorem refl (prog : Program) : prog.Enters prog [] := of_eq rfl rfl rfl

theorem trans (first : prog.Enters mid regs) (second : mid.Enters after others) :
    prog.Enters after (regs ++ others) where
  nextTemp := second.nextTemp.trans first.nextTemp
  names r named := by
    rcases second.names r named with known | new
    · exact (first.names r known).imp_right (mem_append_left others)
    · exact .inr (mem_append_right _ new)

theorem mono (enters : prog.Enters after regs) (sub : ∀ r ∈ regs, r ∈ others) :
    prog.Enters after others where
  nextTemp := enters.nextTemp
  names r named := (enters.names r named).imp_right (sub r)

end Enters

/-- Two calls in a row bring in what each of them brings in, also if the first one stops. -/
theorem enters_bind {others : List Register} {start : Step Program α} {next : α → Step Program β}
    (starts : prog.Enters (start.leaves prog) regs)
    (goesOn : ∀ v mid, start.Yields prog v mid → mid.Enters ((next v).leaves mid) others) :
    prog.Enters ((start >>= next).leaves prog) (regs ++ others) := by
  have stopped : prog.Enters (start.leaves prog) (regs ++ others) := starts.mono fun _ =>
    mem_append_left _
  exact @leaves_bind _ _ _ next start prog (fun after => prog.Enters after (regs ++ others)) stopped
    fun v mid ran =>
      Enters.trans (ran.leaves_eq ▸ starts) (goesOn v mid ran)

/-- A check brings nothing in. -/
theorem enters_lift_bind {checked : Except Breach α} {next : α → Step Program β}
    (goesOn : ∀ v, checked = .ok v → prog.Enters ((next v).leaves prog) regs) :
    prog.Enters ((liftM checked >>= next : Step Program β).leaves prog) regs := by
  have same : prog.Enters ((liftM checked : Step Program α).leaves prog) [] := by
    rw [leaves_lift]
    exact .refl prog
  refine enters_bind same fun v mid ran => ?_
  obtain ⟨passed, rfl⟩ := yields_lift.mp ran
  exact goesOn v passed

theorem enters_changeLayout (change : Layout → Except Breach Layout) (prog : Program) :
    prog.Enters ((changeLayout change).leaves prog) [] :=
  enters_lift_bind fun _ _ => .of_eq rfl rfl rfl

theorem enters_nameBlock (name : String) (prog : Program) :
    prog.Enters ((nameBlock name).leaves prog) [] :=
  enters_lift_bind fun _ _ => .of_eq rfl rfl rfl

theorem enters_addBlock (name : String) (prog : Program) :
    prog.Enters ((addBlock name).leaves prog) [] :=
  enters_bind (enters_nameBlock name prog) fun blk mid _ =>
    enters_bind (enters_changeLayout (·.appendBlock blk) mid) fun _ last _ => .refl last

theorem enters_addPreamble (prog : Program) : prog.Enters (addPreamble.leaves prog) [] := by
  unfold addPreamble
  rw [leaves_get_bind]
  split
  · exact .refl prog
  · refine enters_bind (enters_nameBlock "preamble" prog) fun blk mid _ => ?_
    exact enters_bind (enters_changeLayout (·.setAside blk) mid) fun _ last _ => .of_eq rfl rfl rfl

/-- An instruction that is stored brings its operands in. -/
theorem enters_of_insert {k : InstructionId} {instructions : Arena .instruction Instruction}
    (inserted : prog.instructions.insert inst = .ok (k, instructions)) :
    prog.Enters { prog with instructions := instructions } (inst.dests ++ inst.sources) where
  nextTemp := rfl
  names r := by
    rintro (⟨one, found, isFound, mem⟩ | declared)
    · have looked := (Arena.insert_eq_ok inserted).2.2 one
      rw [show instructions.get? one = some found from isFound] at looked
      split at looked
      · cases looked
        exact .inr mem
      · exact .inl (.inl ⟨one, found, looked.symm, mem⟩)
    · exact .inl (.inr declared)

theorem enters_store (inst : Instruction) (prog : Program) : prog.Enters ((store inst).leaves prog)
      (inst.dests ++ inst.sources) :=
  enters_lift_bind fun _ inserted => enters_of_insert inserted

theorem enters_create (inst : Instruction) (prog : Program) :
    prog.Enters ((create inst).leaves prog) (inst.dests ++ inst.sources) := by
  show prog.Enters (Step.leaves (if prog.instructionLimit ≤ prog.instructions.size then _
    else _) prog) _
  split
  · exact (Enters.refl prog).mono (forall_mem_nil _)
  · exact enters_store inst prog

/-- An instruction is brought in the same way wherever it is placed. -/
theorem enters_create_place (inst : Instruction)
    (placing : InstructionId → Layout → Except Breach Layout) (prog : Program) :
    prog.Enters ((create inst >>= fun k => changeLayout (placing k) >>= fun _ =>
      pure k).leaves prog) (inst.dests ++ inst.sources) := by
  rw [← append_nil (inst.dests ++ inst.sources)]
  exact enters_bind (enters_create inst prog) fun k mid _ =>
    enters_bind (enters_changeLayout (placing k) mid) fun _ last _ => .refl last

/-- The operands of a sequence. -/
def operandsOf (sequence : List Instruction) : List Register :=
  sequence.flatMap fun inst => inst.dests ++ inst.sources

theorem enters_insertAllBefore (anchor : InstructionId) (sequence : List Instruction)
    (prog : Program) :
    prog.Enters ((insertAllBefore anchor sequence).leaves prog) (operandsOf sequence) := by
  induction sequence generalizing prog with
  | nil => exact .refl prog
  | cons inst rest ih =>
    refine enters_bind (enters_create_place inst (fun k => (·.insertBefore k anchor))
      prog) fun k mid _ => ?_
    show mid.Enters _ (operandsOf rest)
    rw [← append_nil (operandsOf rest)]
    exact enters_bind (ih mid) fun _ last _ => .refl last

theorem enters_replace (k : InstructionId) (sequence : List Instruction) (prog : Program) :
    prog.Enters ((replace k sequence).leaves prog) (operandsOf sequence) := by
  rw [← append_nil (operandsOf sequence)]
  exact enters_bind (enters_insertAllBefore k sequence prog) fun _ mid _ =>
    enters_bind (enters_changeLayout (·.remove k) mid) fun _ last _ => .refl last

/-! ### Numbers in use -/

/-- A request for registers fails only where the limit is too low, and it changes nothing then. -/
theorem unchanged_of_allocate (stopped : (allocate count prog).result = .error failure) :
    (allocate count).leaves prog = prog ∧ failure = .error (.outOfRegisters count) ∧
      prog.tempLimit.toNat < prog.nextTemp.toNat + count := by
  by_cases room : prog.nextTemp.toNat + count < UInt32.size ∧
      prog.nextTemp.toNat + count ≤ prog.tempLimit.toNat
  · have given := allocate_yields.mpr ⟨room.1, room.2, rfl, rfl, rfl⟩
    cases given.1.symm.trans stopped
  · have refused : allocate count prog = ⟨.error (.error (.outOfRegisters count)), prog, []⟩ := by
      show (if prog.nextTemp.toNat + count < UInt32.size ∧
        prog.nextTemp.toNat + count ≤ prog.tempLimit.toNat then _ else _ :
          Step Program Range) prog = _
      rw [if_neg room]
      rfl
    unfold Step.leaves
    rw [refused] at stopped ⊢
    cases stopped
    have small := prog.tempLimit.toNat_lt
    refine ⟨rfl, rfl, ?_⟩
    simp only [UInt32.size] at room
    omega

section

variable {reason : Program → ResolutionError → Prop}

theorem stops_noteOperands : (noteOperands ops).FailsFor (onError reason) prog := by
  unfold noteOperands
  rw [fails_get_bind]
  exact fails_lift_bind (fun _ _ => trivial) fun _ _ => fails_modify

/-- Appending is never refused. -/
theorem stops_append : (append blk inst).FailsFor (onError reason) prog := by
  refine fails_bind stops_noteOperands fun _ noted _ => ?_
  refine fails_bind ?_ fun k stored _ => fails_bind (fails_changeLayout fun _ _ => trivial)
    fun _ _ _ => fails_pure
  unfold store
  rw [fails_get_bind]
  exact fails_lift_bind (fun _ _ => trivial) fun _ _ => fails_modify_bind.mpr fails_pure

/-- Declaring is never refused. -/
theorem stops_declare : (declare desc).FailsFor (onError reason) prog := by
  refine fails_bind stops_noteOperands fun _ noted _ => ?_
  rw [fails_get_bind]
  exact fails_lift_bind (fun _ _ => trivial) fun _ _ => fails_modify_bind.mpr fails_pure

end

/-! ### Calls of every kind -/

/-- What a program can be asked while it is built and worked on. -/
inductive Call where
  | addBlock (name : String)
  | addPreamble
  | append (block : BlockId) (inst : Instruction)
  | push (block : BlockId) (inst : Instruction)
  | prepend (block : BlockId) (inst : Instruction)
  | insertBefore (anchor : InstructionId) (inst : Instruction)
  | insertAfter (anchor : InstructionId) (inst : Instruction)
  | replace (key : InstructionId) (sequence : List Instruction)
  | remove (key : InstructionId)
  | declare (desc : Descriptor)
  | allocate (count : Nat)

namespace Call

variable {call : Call}

/-- A computation of which only the program is of interest. -/
def quietly {α : Type} (step : Step Program α) : Step Program (Option Range) := do
  let _ ← step
  return none

/-- Does what is asked. The result is the range that is handed out, if there is one. -/
def perform : Call → Step Program (Option Range)
  | addBlock name => quietly (Program.addBlock name)
  | addPreamble => quietly Program.addPreamble
  | append blk inst => quietly (Program.append blk inst)
  | push blk inst => quietly (Program.push blk inst)
  | prepend blk inst => quietly (Program.prepend blk inst)
  | insertBefore anchor inst => quietly (Program.insertBefore anchor inst)
  | insertAfter anchor inst => quietly (Program.insertAfter anchor inst)
  | replace k sequence => quietly (Program.replace k sequence)
  | remove k => quietly (Program.remove k)
  | declare desc => quietly (Program.declare desc)
  | allocate count => do return some (← Program.allocate count)

/-- The registers that a call notes. -/
def noted : Call → List Register
  | append _ inst => inst.dests ++ inst.sources
  | declare desc => desc.registers
  | _ => []

/-- The registers that a call brings in without a note. -/
def brought : Call → List Register
  | push _ inst | prepend _ inst | insertBefore _ inst
  | insertAfter _ inst => inst.dests ++ inst.sources
  | replace _ sequence => operandsOf sequence
  | _ => []

/-- Whether a call leaves the next fresh number as it is. -/
def isSteady : Call → Bool
  | append _ _ | declare _ | allocate _ => false
  | _ => true

theorem noted_eq_nil (steady : call.isSteady = true) : call.noted = [] := by
  cases call with
  | append | declare | allocate => cases steady
  | _ => rfl

section

variable {α : Type} {step : Step Program α} {range : Option Range}

theorem quietly_yields : (quietly step).Yields prog range after ↔
      (∃ v, step.Yields prog v after) ∧ range = none := by
  unfold quietly
  simp only [yields_bind, yields_pure]
  constructor
  · rintro ⟨v, _, ran, rfl, rfl⟩
    exact ⟨⟨v, ran⟩, rfl⟩
  · rintro ⟨⟨v, ran⟩, rfl⟩
    exact ⟨v, after, ran, rfl, rfl⟩

theorem enters_quietly (enters : prog.Enters (step.leaves prog) regs) :
    prog.Enters ((quietly step).leaves prog) regs := by
  rw [← append_nil regs]
  exact enters_bind enters fun _ last _ => .refl last

theorem not_refused_quietly {error : ResolutionError}
    (stops : step.FailsFor (onError fun _ _ => False) prog)
    (refused : (quietly step prog).result = .error (.error error)) : False :=
  fails_bind stops (fun _ _ _ => fails_pure) _ refused

end

/-- What a steady call leaves, whether it is answered or refused. -/
theorem enters (steady : call.isSteady = true) (prog : Program) :
    prog.Enters (call.perform.leaves prog) call.brought := by
  cases call with
  | append | declare | allocate => cases steady
  | addBlock name => exact enters_quietly (enters_addBlock name prog)
  | addPreamble => exact enters_quietly (enters_addPreamble prog)
  | push blk inst =>
    exact enters_quietly (enters_create_place inst (fun k => (·.append k blk)) prog)
  | prepend blk inst =>
    exact enters_quietly (enters_create_place inst (fun k => (·.prepend k blk)) prog)
  | insertBefore anchor inst =>
    exact enters_quietly (enters_create_place inst (fun k => (·.insertBefore k anchor)) prog)
  | insertAfter anchor inst =>
    exact enters_quietly (enters_create_place inst (fun k => (·.insertAfter k anchor)) prog)
  | replace k sequence => exact enters_quietly (enters_replace k sequence prog)
  | remove k => exact enters_quietly (enters_changeLayout (·.remove k) prog)

theorem leaves_of_refused (refused : ((allocate count).perform prog).result = .error failure) :
    (allocate count).perform.leaves prog = prog := by
  cases ended : (Program.allocate count prog).result with
  | ok range =>
    have ran : (allocate count).perform.Yields prog (some range) _ :=
      yields_bind.mpr ⟨range, _, ⟨ended, rfl⟩, yields_pure.mpr ⟨rfl, rfl⟩⟩
    cases ran.1.symm.trans refused
  | error cause =>
    have same : (allocate count).perform.leaves prog = (Program.allocate count).leaves prog := by
      show (Step.andThen (Program.allocate count) _ prog).state = _
      simp only [Step.andThen, ended]
      rfl
    exact same.trans (unchanged_of_allocate ended).1

theorem range_eq_none {range : Option Range} (steady : call.isSteady = true)
    (ran : call.perform.Yields prog range after) : range = none := by
  cases call with
  | append | declare | allocate => cases steady
  | _ => exact (quietly_yields.mp ran).2

end Call

/-- A program with what has been handed out and named so far. -/
structure Account where
  program : Program
  ranges : List Range
  noted : List Register
  brought : List Register

namespace Account

variable {account next : Account} {call : Call}

/-- The account before any call. -/
def opened (name : String) : Account := ⟨.empty name, [], [], []⟩

/-- Makes a call. A call that is refused hands out nothing, but it may have begun to bring
instructions in. There is no account after a breach. -/
def enter (account : Account) (call : Call) : Except Breach Account :=
  let outcome := call.perform.run account.program
  match outcome.result with
  | .ok range => .ok
    { program := outcome.state
      ranges := range.toList ++ account.ranges
      noted := call.noted ++ account.noted
      brought := call.brought ++ account.brought }
  | .error (.error _) => .ok
    { account with program := outcome.state, brought := call.brought ++ account.brought }
  | .error (.breach cause) => .error cause

/-- The account of a new program after some calls. -/
def enterAll (name : String) (calls : List Call) : Except Breach Account :=
  calls.foldlM enter (opened name)

/-- The least number above the ranges handed out and the registers that were noted. -/
def mark (account : Account) : Nat :=
  max (account.ranges.foldr (fun range least => max range.2.toNat least) 0)
    (numberAbove account.noted)

/-- What an account says of its program: where the next range starts, and that whatever is named
was noted or brought in. -/
structure Balanced (account : Account) : Prop where
  next : account.program.nextTemp.toNat = account.mark
  names : ∀ reg, account.program.Names reg → account.program.Noted reg ∨ reg ∈ account.brought

theorem balanced_opened (name : String) : (opened name).Balanced where
  next := rfl
  names r named := by
    rcases named with ⟨_, _, found, _⟩ | ⟨_, _, found, _⟩
    · cases found
    · cases found

/-- A call is answered or refused. -/
theorem enter_cases (entered : account.enter call = .ok next) :
    (∃ range, call.perform.Yields account.program range next.program ∧
      next.ranges = range.toList ++ account.ranges ∧ next.noted = call.noted ++ account.noted ∧
      next.brought = call.brought ++ account.brought) ∨
    ∃ error, (call.perform account.program).result = .error (.error error) ∧ next = { account with
        program := call.perform.leaves account.program
        brought := call.brought ++ account.brought } := by
  unfold enter Step.run at entered
  dsimp only at entered
  split at entered
  · next range ended =>
    cases entered
    exact .inl ⟨range, ⟨ended, rfl⟩, rfl, rfl, rfl⟩
  · next error stopped =>
    cases entered
    exact .inr ⟨error, stopped, rfl⟩
  · cases entered

namespace Balanced

section

variable (balanced : account.Balanced)

include balanced

/-- A steady call keeps the mark where it is. -/
theorem steady (isSteady : call.isSteady = true)
    (prog : next.program = call.perform.leaves account.program)
    (ranges : next.ranges = account.ranges) (noted : next.noted = account.noted)
    (brought : next.brought = call.brought ++ account.brought) : next.Balanced := by
  have enters := call.enters isSteady account.program
  rw [← prog] at enters
  refine ⟨?_, fun r named => ?_⟩
  · rw [enters.nextTemp, balanced.next]
    unfold mark
    rw [ranges, noted]
  · rw [brought]
    rcases enters.names r named with known | new
    · rcases balanced.names r known with isNoted | earlier
      · exact .inl (isNoted.mono (enters.nextTemp ▸ UInt32.le_refl _))
      · exact .inr (mem_append_right _ earlier)
    · exact .inr (mem_append_left _ new)

/-- Registers that are noted push the mark behind them. -/
theorem notes (counted : numberAfter account.program.nextTemp regs = .ok last)
    (nextTemp : next.program.nextTemp = last)
    (names : ∀ r, next.program.Names r → account.program.Names r ∨ r ∈ regs)
    (ranges : next.ranges = account.ranges) (noted : next.noted = regs ++ account.noted)
    (brought : next.brought = account.brought) : next.Balanced := by
  obtain ⟨grown, below⟩ := numberAfter_eq_ok counted
  refine ⟨?_, fun r named => ?_⟩
  · rw [nextTemp, toNat_of_numberAfter counted, balanced.next]
    unfold mark
    rw [ranges, noted, numberAbove_append]
    omega
  · rcases names r named with known | new
    · rcases balanced.names r known with isNoted | earlier
      · exact .inl (isNoted.mono (nextTemp ▸ grown))
      · exact .inr (brought ▸ earlier)
    · exact .inl fun virt => nextTemp ▸ below r new virt

theorem append (entered : account.enter (.append blk inst) = .ok next) : next.Balanced := by
  obtain ⟨range, ran, ranges, noted, brought⟩ | ⟨error, refused, _⟩ := enter_cases entered
  · obtain ⟨⟨k, appends⟩, rfl⟩ := Call.quietly_yields.mp ran
    obtain ⟨last, counted, instructions, layout, inserted, _, isProgram⟩ := append_yields appends
    have enters : Enters { account.program with nextTemp := last } _ _ := enters_of_insert inserted
    refine balanced.notes counted (congrArg Program.nextTemp isProgram) (fun r named => ?_)
      ranges noted brought
    rw [isProgram] at named
    exact enters.names r named
  · exact (Call.not_refused_quietly stops_append refused).elim

theorem declare (entered : account.enter (.declare desc) = .ok next) : next.Balanced := by
  obtain ⟨range, ran, ranges, noted, brought⟩ | ⟨error, refused, _⟩ := enter_cases entered
  · obtain ⟨⟨k, declares⟩, rfl⟩ := Call.quietly_yields.mp ran
    obtain ⟨last, descs, counted, inserted, isProgram⟩ := declare_yields declares
    refine balanced.notes counted (congrArg Program.nextTemp isProgram) (fun r named => ?_)
      ranges noted brought
    rw [isProgram] at named
    rcases named with named | ⟨one, found, isFound, mem⟩
    · exact .inl (.inl named)
    · have looked := (Arena.insert_eq_ok inserted).2.2 one
      rw [show descs.get? one = some found from isFound] at looked
      split at looked
      · cases looked
        exact .inr mem
      · exact .inl (.inr ⟨one, found, looked.symm, mem⟩)
  · exact (Call.not_refused_quietly stops_declare refused).elim

theorem allocate (entered : account.enter (.allocate count) = .ok next) : next.Balanced := by
  obtain ⟨range, ran, ranges, noted, brought⟩ | ⟨error, refused, rfl⟩ := enter_cases entered
  · obtain ⟨⟨first, stop⟩, _, given, ended⟩ := yields_bind.mp ran
    obtain ⟨rfl, isProgram⟩ := yields_pure.mp ended
    obtain ⟨room, _, rfl, isStop, rfl⟩ := allocate_yields.mp given
    have stops : stop.toNat = account.program.nextTemp.toNat + count := by
      rw [isStop]
      exact UInt32.toNat_ofNat_of_lt' room
    refine ⟨?_, fun r named => ?_⟩
    · have start := balanced.next
      rw [isProgram]
      unfold mark at start ⊢
      rw [ranges, noted]
      show stop.toNat = max (max stop.toNat (account.ranges.foldr _ 0)) (numberAbove account.noted)
      omega
    · rw [isProgram] at named ⊢
      rcases balanced.names r named with isNoted | earlier
      · refine .inl (isNoted.mono (UInt32.le_iff_toNat_le.mpr ?_))
        show account.program.nextTemp.toNat ≤ stop.toNat
        omega
      · exact .inr (brought ▸ earlier)
  · rw [Call.leaves_of_refused refused]
    exact balanced

/-- A call keeps the account. -/
theorem enter (entered : account.enter call = .ok next) : next.Balanced := by
  cases isSteady : call.isSteady with
  | true =>
    obtain ⟨range, ran, ranges, noted, brought⟩ | ⟨error, _, rfl⟩ := enter_cases entered
    · rw [Call.range_eq_none isSteady ran] at ranges
      rw [Call.noted_eq_nil isSteady] at noted
      exact balanced.steady isSteady ran.leaves_eq.symm ranges noted brought
    · exact balanced.steady isSteady rfl rfl rfl rfl
  | false =>
    cases call with
    | append blk inst => exact balanced.append entered
    | declare desc => exact balanced.declare entered
    | allocate count => exact balanced.allocate entered
    | _ => cases isSteady

/-- Calls in a row keep the account. -/
theorem enterAll {calls : List Call} (entered : calls.foldlM Account.enter account = .ok next) :
    next.Balanced := by
  induction calls generalizing account with
  | nil =>
    cases entered
    exact balanced
  | cons call rest ih =>
    rw [foldlM_cons] at entered
    obtain ⟨between, enters, later⟩ := except_bind_eq_ok.mp entered
    exact ih (balanced.enter enters) later

end

end Balanced

theorem stop_le_mark {range : Range} (mem : range ∈ account.ranges) :
    range.2.toNat ≤ account.mark := by
  unfold mark
  generalize account.ranges = ranges at mem ⊢
  induction ranges with
  | nil => cases mem
  | cons head rest ih =>
    rw [foldr_cons]
    rcases mem_cons.mp mem with rfl | inside
    · omega
    · have below := ih inside
      omega

/-- After any calls on a new program, a request for registers is answered with the numbers from the
mark on, as many as were asked for and all below the limit. Ranges handed out earlier end before
it, and so do the numbers of all registers that the program names, except for those that a pushed,
prepended or inserted instruction brought in and that no other call noted. A request that is not
answered changes nothing. -/
theorem allocate_fresh {name : String} {calls : List Call} {account : Account}
    (entered : enterAll name calls = .ok account) (count : Nat) :
    (∀ first stop after, (allocate count).Yields account.program (first, stop) after →
      first.toNat = account.mark ∧ stop.toNat = first.toNat + count ∧
      stop ≤ account.program.tempLimit ∧ (∀ range ∈ account.ranges, range.2 ≤ first) ∧
      ∀ register, account.program.Names register → register.isVirtual = true →
        register.number < first ∨ register ∈ account.brought ∧ register ∉ account.noted) ∧
    ∀ failure, (allocate count account.program).result = .error failure →
      (allocate count).leaves account.program = account.program ∧
      failure = .error (.outOfRegisters count) ∧
      account.program.tempLimit.toNat < account.mark + count := by
  have balanced : account.Balanced := (balanced_opened name).enterAll entered
  refine ⟨fun first stop after given => ?_, fun failure stopped => ?_⟩
  · obtain ⟨room, below, rfl, rfl, -⟩ := allocate_yields.mp given
    have stops := UInt32.toNat_ofNat_of_lt' room
    refine ⟨balanced.next, stops, ?_, fun range member => ?_, fun register named virtual => ?_⟩
    · exact UInt32.le_iff_toNat_le.mpr (Nat.le_trans (Nat.le_of_eq stops) below)
    · exact UInt32.le_iff_toNat_le.mpr (balanced.next ▸ stop_le_mark member)
    · by_cases inside : register ∈ account.noted
      · left
        rw [UInt32.lt_iff_toNat_lt, balanced.next]
        exact Nat.lt_of_lt_of_le (number_lt_numberAbove inside virtual) (Nat.le_max_right _ _)
      · exact (balanced.names register named).imp (fun noted => noted virtual)
          fun brought => ⟨brought, inside⟩
  · obtain ⟨same, isFailure, full⟩ := unchanged_of_allocate stopped
    exact ⟨same, isFailure, balanced.next ▸ full⟩

/-- A block with a copy, and then three fresh registers. A copy that is pushed names one of them and
one register more. -/
def mixedCalls : List Call :=
  [.addBlock "entry", .append ⟨0⟩ (.move (.temp 5) (.temp 6)), .allocate 3,
    .push ⟨0⟩ (.move (.temp 8) (.temp 12)), .insertBefore ⟨0⟩ (.move (.temp 7) (.temp 5))]

/-- The account after these calls. -/
def mixedAccount : Account := (enterAll "main" mixedCalls).toOption.getD (opened "main")

/-- The next four registers start behind the three before, and one of them is in use. -/
theorem allocate_fresh_mixed :
    enterAll "main" mixedCalls = .ok mixedAccount ∧ mixedAccount.ranges = [(7, 10)] ∧
      (allocate 4).Yields mixedAccount.program (10, 14)
        { mixedAccount.program with nextTemp := 14 } ∧
      (10 : UInt32).toNat = mixedAccount.mark ∧
      ∀ register, mixedAccount.program.Names register → register.isVirtual = true →
        register.number < 10 ∨ register ∈ mixedAccount.brought ∧ register ∉ mixedAccount.noted := by
  have entered : enterAll "main" mixedCalls = .ok mixedAccount := rfl
  have given : (allocate 4).Yields mixedAccount.program (10, 14)
      { mixedAccount.program with nextTemp := 14 } := ⟨rfl, rfl⟩
  obtain ⟨starts, _, _, _, named⟩ := (allocate_fresh entered 4).1 10 14 _ given
  exact ⟨entered, rfl, given, starts, named⟩

/-- A register that a pushed instruction names is handed out as a fresh one. -/
theorem pushed_register_handed_out : ∃ account first stop after register,
      enterAll "main" [.addBlock "entry", .push ⟨0⟩ (.move (.temp 5) (.temp 6))] = .ok account ∧
      (allocate 10).Yields account.program (first, stop) after ∧
      account.program.Names register ∧ register.isVirtual = true ∧
      first ≤ register.number ∧ register.number < stop := by
  refine ⟨_, 0, 10, _, .temp 5, rfl, ⟨rfl, rfl⟩, ?_, rfl, by decide, by decide⟩
  exact .inl ⟨⟨0⟩, .move (.temp 5) (.temp 6), rfl, mem_cons_self⟩

end Account

end Program

end RegisterChains

/-
This file packages the loops of a walk. An invariant says what holds before an instruction is
looked at, while its runs are handled, and once it is gone; it is enough to show that handling one
run keeps it. Then it holds after the whole visit, and a walk over a block is a chain of visits.
-/

import RegisterChains.Proofs.Repair.Handling

namespace RegisterChains

open Step

variable {fix : RunFix}

/-- What is left to show, depending on what a run came to: the instruction starts over, or it
goes on with some copies behind it, or it is gone. -/
def RunFix.Leaves (again : Prop) (on : List PendingCopy → Prop)
    (gone : Option InstructionId → Prop) : RunFix → Prop
  | .holds => on []
  | .copiedOut copies => on copies
  | .narrowed => again
  | .replaced resume => gone resume

theorem RunFix.Leaves.imp {again again' : Prop} {on on' : List PendingCopy → Prop}
    {gone gone' : Option InstructionId → Prop} (leaves : fix.Leaves again on gone)
    (imp : again → again') (onward : ∀ copies, on copies → on' copies)
    (third : ∀ resume, gone resume → gone' resume) : fix.Leaves again' on' gone' := by
  cases fix with
  | holds => exact onward [] leaves
  | copiedOut copies => exact onward copies leaves
  | narrowed => exact imp leaves
  | replaced resume => exact third resume leaves

namespace Walk

variable {setting : Setting} {place : UInt32} {k : InstructionId} {walk after : Walk}
  {runs : List OperandRun} {next : Option InstructionId} {remaining : Nat}

/-- What is kept while an instruction is visited: before its runs are handled, while some of them
are left, and once the instruction has been replaced. -/
structure Invariant (setting : Setting) (place : UInt32) (key : InstructionId) where
  before : Walk → List PendingCopy → Prop
  during : Walk → List PendingCopy → List OperandRun → Prop
  gone : Walk → List PendingCopy → Option InstructionId → Prop
  begins : ∀ {walk pending instruction}, before walk pending →
    walk.program.instruction key = .ok instruction →
    during walk pending (runsInOrder setting.target instruction)
  step : ∀ {walk after pending instruction run runs ops fix},
    during walk pending (run :: runs) → walk.program.instruction key = .ok instruction →
    run.operands instruction = .ok ops →
    Handled setting place key run walk instruction ops fix after →
    after.looked = walk.looked + 1 →
    RunFix.Leaves (before after pending) (fun copies => during after (pending ++ copies) runs)
      (gone after pending) fix

namespace Invariant

variable {invariant : Invariant setting place k} {pending : List PendingCopy} {settled : Settled}
  {next : Option InstructionId} {headroom : Nat}

/-- What holds when runs were handled one after the other. -/
def Settles (invariant : Invariant setting place k) (after : Walk) : Settled → Prop
  | .holding pending => invariant.during after pending []
  | .narrowed pending => invariant.before after pending
  | .replaced pending resume => invariant.gone after pending resume

/-- One run is handled. -/
theorem handleRun {run : OperandRun} (holds : invariant.during walk pending (run :: runs))
    (ran : (handleRun setting place k run).Yields walk fix after) :
    fix.Leaves (invariant.before after pending)
      (fun copies => invariant.during after (pending ++ copies) runs)
      (invariant.gone after pending) := by
  obtain ⟨instruction, ops, found, isOperands, handled, looked⟩ := handleRun_yields ran
  exact invariant.step holds found isOperands handled looked

theorem handleRuns (holds : invariant.during walk pending runs)
    (ran : (handleRuns setting place k runs pending).Yields walk settled after) :
    invariant.Settles after settled := by
  induction runs generalizing walk pending with
  | nil =>
    obtain ⟨rfl, rfl⟩ := yields_pure.mp ran
    exact holds
  | cons run rest ih =>
    obtain ⟨fix, mid, handles, later⟩ := yields_bind.mp ran
    have kept := handleRun holds handles
    cases fix with
    | holds => exact ih (List.append_nil pending ▸ kept) later
    | copiedOut copies => exact ih kept later
    | narrowed | replaced resume =>
      obtain ⟨rfl, rfl⟩ := yields_pure.mp later
      exact kept

/-- An instruction is settled when all its runs were handled, or it is gone. -/
theorem settle (holds : invariant.before walk pending)
    (ran : (settle setting place k headroom pending).Yields walk settled after) :
    (∃ copies, settled = .holding copies ∧ invariant.during after copies []) ∨
      ∃ copies resume, settled = .replaced copies resume ∧ invariant.gone after copies resume := by
  induction headroom generalizing walk pending with
  | zero => exact absurd ran not_yields_breach
  | succ headroom ih =>
    obtain ⟨instruction, _, reads, read⟩ := yields_bind.mp ran
    obtain ⟨found, rfl⟩ := instruction_yields.mp reads
    obtain ⟨inner, _, handles, later⟩ := yields_bind.mp read
    have kept := handleRuns (invariant.begins holds found) handles
    cases inner with
    | narrowed copies => exact ih kept later
    | holding copies =>
      obtain ⟨rfl, rfl⟩ := yields_pure.mp later
      exact .inl ⟨copies, rfl, kept⟩
    | replaced copies resume =>
      obtain ⟨rfl, rfl⟩ := yields_pure.mp later
      exact .inr ⟨copies, resume, rfl, kept⟩

/-- A visit concludes with an instruction whose runs were handled, or it goes on where an
instruction was replaced. -/
theorem visit (invariant : Invariant setting place k) (holds : invariant.before walk [])
    (ran : (visit setting place k).Yields walk next after) :
    (∃ mid copies, invariant.during mid copies [] ∧
      (conclude setting place k copies).Yields mid next after) ∨
    ∃ mid copies, invariant.gone mid copies next ∧
    after = { mid with deferred := mid.deferred ++ copies } := by
  unfold Walk.visit at ran
  rw [yields_get_bind] at ran
  obtain ⟨settled, mid, settles, rest⟩ := yields_bind.mp ran
  obtain ⟨copies, rfl, kept⟩ | ⟨copies, resume, rfl, kept⟩ := settle holds settles
  · exact .inl ⟨mid, copies, kept, rest⟩
  · rw [yields_report_bind, yields_modify_bind] at rest
    obtain ⟨rfl, rfl⟩ := yields_pure.mp rest
    exact .inr ⟨mid, copies, kept, rfl⟩

/-! ### Failures -/

/-- An instruction starts over only after a run was looked at. -/
theorem looked_of_narrowed {copies : List PendingCopy}
    (ran : (Walk.handleRuns setting place k runs pending).Yields walk (.narrowed copies) after) :
    walk.looked < after.looked := by
  induction runs generalizing walk pending with
  | nil =>
    obtain ⟨no, _⟩ := yields_pure.mp ran
    cases no
  | cons run rest ih =>
    obtain ⟨fix, mid, handles, later⟩ := yields_bind.mp ran
    obtain ⟨_, _, _, _, _, one⟩ := handleRun_yields handles
    cases fix with
    | holds | copiedOut copies =>
      have more := ih later
      omega
    | narrowed =>
      obtain ⟨_, rfl⟩ := yields_pure.mp later
      omega
    | replaced resume =>
      obtain ⟨no, _⟩ := yields_pure.mp later
      cases no

section

variable {account : Walk → Failure → Prop}
  (fails : ∀ {walk pending run runs}, invariant.during walk pending (run :: runs) →
    (Walk.handleRun setting place k run).FailsFor account walk)

include fails

theorem fails_handleRuns (holds : invariant.during walk pending runs) :
    (Walk.handleRuns setting place k runs pending).FailsFor account walk := by
  induction runs generalizing walk pending with
  | nil => exact fails_pure
  | cons run rest ih =>
    refine fails_bind (fails holds) fun fix mid handles => ?_
    have kept := handleRun holds handles
    cases fix with
    | holds => exact ih (List.append_nil pending ▸ kept)
    | copiedOut copies => exact ih kept
    | narrowed | replaced resume => exact fails_pure

variable
  (found : ∀ {walk pending}, invariant.before walk pending → (instruction k).FailsFor account walk)
  (spent : ∀ {walk pending}, invariant.before walk pending → Stats.limit ≤ walk.looked →
    (breach .overflow : Step Walk Settled).FailsFor account walk)

include found spent

/-- An instruction can start over as long as runs can be counted. -/
theorem fails_settle (holds : invariant.before walk pending)
    (enough : Stats.limit ≤ walk.looked + headroom) :
    (Walk.settle setting place k headroom pending).FailsFor account walk := by
  induction headroom generalizing walk pending with
  | zero => exact spent holds enough
  | succ headroom ih =>
    refine fails_bind (found holds) fun instruction walk reads => ?_
    obtain ⟨isInst, rfl⟩ := instruction_yields.mp reads
    have begun := invariant.begins holds isInst
    refine fails_bind (fails_handleRuns fails begun) fun settled mid handles => ?_
    have kept := handleRuns begun handles
    cases settled with
    | narrowed copies =>
      have more : walk.looked < mid.looked := looked_of_narrowed handles
      exact ih kept (by omega)
    | holding copies | replaced copies resume => exact fails_pure

/-- A visit fails only as looking for the instruction, handling a run or concluding can. -/
theorem fails_visit (holds : invariant.before walk [])
    (concludes : ∀ {walk pending}, invariant.during walk pending [] →
      (conclude setting place k pending).FailsFor account walk) :
    (Walk.visit setting place k).FailsFor account walk := by
  have enough : Stats.limit ≤ walk.looked + (Stats.limit - walk.looked) := by omega
  unfold Walk.visit
  rw [fails_get_bind]
  refine fails_bind (fails_settle fails found spent holds enough) fun settled mid settles => ?_
  obtain ⟨copies, rfl, kept⟩ | ⟨copies, resume, rfl, _⟩ := settle holds settles
  · exact concludes kept
  · rw [fails_report_bind, fails_modify_bind]
    exact fails_pure

end

end Invariant

/-- What every visit keeps holds at the end of a walk. -/
theorem visitFrom_keeps (holds : Walk → Option InstructionId → Prop)
    (step : ∀ {walk after place k next}, holds walk (some k) →
      (visit setting place k).Yields walk next after → holds after next) (starts : holds walk next)
    (ran : (visitFrom setting remaining next).Yields walk () after) : holds after none := by
  induction remaining generalizing walk next with
  | zero =>
    cases next with
    | none =>
      obtain ⟨_, rfl⟩ := yields_pure.mp ran
      exact starts
    | some k =>
      obtain ⟨_, _, _, no⟩ := yields_bind.mp ran
      exact absurd no not_yields_breach
  | succ remaining ih =>
    cases next with
    | none =>
      obtain ⟨_, rfl⟩ := yields_pure.mp ran
      exact starts
    | some k =>
      obtain ⟨_, _, visits, later⟩ := yields_bind.mp ran
      exact ih (step starts visits) later

/-- A walk over a block fails only as a visit can, or because there are more instructions than
places. -/
theorem fails_visitFrom {account : Walk → Failure → Prop}
    (holds : Nat → Walk → Option InstructionId → Prop)
    (step : ∀ {walked walk after place k next}, holds walked walk (some k) →
      (visit setting place k).Yields walk next after → holds (walked + 1) after next)
    (fails : ∀ {walked walk place k}, holds walked walk (some k) →
      (visit setting place k).FailsFor account walk)
    (placeless : ∀ {walked walk next}, holds walked walk next → UInt32.size ≤ walked →
      (breach .overflow : Step Walk Unit).FailsFor account walk) {walked : Nat}
    (starts : holds walked walk next) (enough : UInt32.size ≤ walked + remaining + 1) :
    (visitFrom setting remaining next).FailsFor account walk := by
  induction remaining generalizing walked walk next with
  | zero =>
    cases next with
    | none => exact fails_pure
    | some k =>
      exact fails_bind (fails starts) fun _ _ visits => placeless (step starts visits) enough
  | succ remaining ih =>
    cases next with
    | none => exact fails_pure
    | some k =>
      exact fails_bind (fails starts) fun _ _ visits =>
        ih (step starts visits) (by omega)

end Walk

end RegisterChains

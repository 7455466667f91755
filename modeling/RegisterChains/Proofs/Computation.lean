/-
This file gives the rules for reasoning about computations. A computation that ends is
described by what it gives and by the state it leaves; there is one rule for each way in
which computations are put together, and a proof about a computation takes it apart with
these rules and never looks at how outcomes are passed on. What has to hold also when a
computation stops is stated about the state alone.
-/

import RegisterChains.Step
import Mathlib.Data.List.Forall2

namespace RegisterChains

variable {ε α β : Type} {check next : α → Except ε β} {start : Except ε α} {results : List β}
  {wrong : Prop}

/-! ### Results that may be a breach -/

/-- A chain of checked steps succeeds exactly when both parts do. -/
theorem except_bind_eq_ok {result : β} :
    (start >>= next) = .ok result ↔ ∃ v, start = .ok v ∧ next v = .ok result := by
  cases start with
  | error cause => simp [bind, Except.bind]
  | ok v => simp [bind, Except.bind]

theorem except_pure_eq_ok {v result : α} : (pure v : Except ε α) = .ok result ↔ v = result := by
  simp [pure, Except.pure]

/-- A check that goes on only if nothing is wrong. -/
theorem except_unless_throw_eq_ok [Decidable wrong] {cause : ε} {next : Unit → Except ε α}
    {result : α} : (if wrong then throw cause >>= next else next ()) = .ok result ↔
      ¬ wrong ∧ next () = .ok result := by
  split
  · next holds =>
      exact iff_of_false nofun fun both => both.1 holds
  · next fails => exact (and_iff_right fails).symm

theorem exists_bind_eq_ok {v : α} (passes : start = .ok v) (rest : ∃ result, next v = .ok result) :
    ∃ result, (start >>= next) = .ok result :=
  rest.imp fun _ ends => except_bind_eq_ok.mpr ⟨v, passes, ends⟩

theorem exists_bind_of_exists (passes : ∃ v, start = .ok v)
    (rest : ∀ v, start = .ok v → ∃ result, next v = .ok result) :
    ∃ result, (start >>= next) = .ok result := by
  obtain ⟨v, passed⟩ := passes
  exact exists_bind_eq_ok passed (rest v passed)

theorem exists_unless_throw_eq_ok [Decidable wrong] {cause : ε} {next : Unit → Except ε α}
    (right : ¬ wrong) (rest : ∃ result, next () = .ok result) :
    ∃ result, (if wrong then throw cause >>= next else next ()) = .ok result :=
  rest.imp fun _ ends => except_unless_throw_eq_ok.mpr ⟨right, ends⟩

/-- A list of checked steps succeeds exactly when each of them does. -/
theorem except_mapM_eq_ok {list : List α} : list.mapM check = .ok results ↔
      List.Forall₂ (fun elem result => check elem = .ok result) list results := by
  induction list generalizing results with
  | nil =>
    rw [List.mapM_nil, except_pure_eq_ok, List.forall₂_nil_left_iff, eq_comm]
  | cons elem rest ih =>
    rw [List.mapM_cons, except_bind_eq_ok, List.forall₂_cons_left_iff]
    refine exists_congr fun result => ?_
    rw [except_bind_eq_ok]
    constructor
    · rintro ⟨checked, others, passed, ended⟩
      rw [except_pure_eq_ok] at ended
      exact ⟨others, checked, ih.mp passed, ended.symm⟩
    · rintro ⟨others, checked, passed, rfl⟩
      exact ⟨checked, others, ih.mpr passed, rfl⟩

theorem exists_mapM_eq_ok {list : List α}
    (passes : ∀ elem ∈ list, ∃ result, check elem = .ok result) :
    ∃ results, list.mapM check = .ok results := by
  induction list with
  | nil => exact ⟨[], rfl⟩
  | cons head rest ih =>
    obtain ⟨result, checked⟩ := passes head List.mem_cons_self
    obtain ⟨results, later⟩ := ih fun elem inside =>
      passes elem (List.mem_cons_of_mem head inside)
    exact ⟨result :: results, except_mapM_eq_ok.mpr (.cons checked (except_mapM_eq_ok.mp later))⟩

theorem except_forM_eq_ok {check : α → Except ε Unit} {list : List α} :
    list.forM check = .ok () ↔ ∀ elem ∈ list, check elem = .ok () := by
  induction list with
  | nil => simp [List.forM, pure, Except.pure]
  | cons head rest ih =>
    rw [List.forall_mem_cons, ← ih]
    refine except_bind_eq_ok.trans ?_
    constructor
    · rintro ⟨_, passes, later⟩
      exact ⟨passes, later⟩
    · rintro ⟨passes, later⟩
      exact ⟨(), passes, later⟩

theorem exists_of_mapM {list : List α} (passed : list.mapM check = .ok results) {result : β}
    (mem : result ∈ results) : ∃ elem ∈ list, check elem = .ok result := by
  have related := except_mapM_eq_ok.mp passed
  clear passed
  induction related with
  | nil => cases mem
  | cons checked _ ih =>
    rcases List.mem_cons.mp mem with rfl | inside
    · exact ⟨_, List.mem_cons_self, checked⟩
    · obtain ⟨elem, inside', checked'⟩ := ih inside
      exact ⟨elem, List.mem_cons_of_mem _ inside', checked'⟩

namespace Step

variable {σ τ α β : Type} {next : α → Step σ β} {checked : Except Breach α} {start step : Step σ α}
  {change : σ → σ} {cause : Inconsistency} {note : Note} {contradicted : Prop} {notes : List Note}
  {question : α → Except Breach Bool}

/-! ### Computations that end -/

/-- A computation ends from a state, gives a value, and leaves another state. -/
def Yields (step : Step σ α) (state : σ) (v : α) (after : σ) : Prop :=
  (step state).result = .ok v ∧ (step state).state = after

variable {state mid after : σ} {v result : α} {failure : Failure} {replace : τ → σ → τ}
  {part : τ → σ} {holds : σ → Prop} {outer : τ}

theorem yields_pure :
    (pure v : Step σ α).Yields state result after ↔ result = v ∧ after = state := by
  show Except.ok v = .ok result ∧ state = after ↔ _
  constructor
  · rintro ⟨same, rfl⟩
    cases same
    exact ⟨rfl, rfl⟩
  · rintro ⟨rfl, rfl⟩
    exact ⟨rfl, rfl⟩

theorem yields_bind {result : β} :
    (start >>= next).Yields state result after ↔ ∃ v mid, start.Yields state v mid ∧
        (next v).Yields mid result after := by
  show (andThen start next).Yields state result after ↔ _
  cases ended : (start state).result with
  | error failure => simp [Yields, andThen, ended]
  | ok v =>
    simp only [Yields, andThen, ended, Except.ok.injEq]
    constructor
    · intro ran
      exact ⟨v, _, ⟨rfl, rfl⟩, ran⟩
    · rintro ⟨_, _, ⟨rfl, rfl⟩, ran⟩
      exact ran

theorem yields_bind_pure {final : α → β} {result : β} :
    (start >>= fun v => pure (final v)).Yields state result after ↔
      ∃ v, start.Yields state v after ∧ result = final v := by
  rw [yields_bind]
  constructor
  · rintro ⟨v, _, ran, ended⟩
    obtain ⟨rfl, rfl⟩ := yields_pure.mp ended
    exact ⟨v, ran, rfl⟩
  · rintro ⟨v, ran, rfl⟩
    exact ⟨v, _, ran, yields_pure.mpr ⟨rfl, rfl⟩⟩

theorem yields_bind_of {reached : α → τ → Prop} {left : τ → σ} {result : β}
    (ends : ∀ {v after}, start.Yields state v after ↔ ∃ part, reached v part ∧ after = left part)
    (ran : (start >>= next).Yields state result after) :
    ∃ v part, reached v part ∧ (next v).Yields (left part) result after := by
  obtain ⟨v, _, first, rest⟩ := yields_bind.mp ran
  obtain ⟨part, reached, rfl⟩ := ends.mp first
  exact ⟨v, part, reached, rest⟩

/-- Looking at the state changes nothing. -/
theorem yields_get_bind {next : σ → Step σ β} {result : β} :
    ((get : Step σ σ) >>= next).Yields state result after ↔
      (next state).Yields state result after := Iff.rfl

theorem yields_get {result : σ} : (get : Step σ σ).Yields state result after ↔
    result = state ∧ after = state := by
  show Except.ok state = .ok result ∧ state = after ↔ _
  rw [Except.ok.injEq, eq_comm, @eq_comm _ state after]

theorem yields_set {replacement : σ} {result : Unit} :
    (set replacement : Step σ Unit).Yields state result after ↔ after = replacement := by
  show Except.ok () = .ok result ∧ replacement = after ↔ _
  rw [@eq_comm _ replacement after]
  simp

theorem yields_modify {result : Unit} :
    (modify change : Step σ Unit).Yields state result after ↔ after = change state := by
  show Except.ok () = .ok result ∧ change state = after ↔ _
  rw [@eq_comm _ (change state) after]
  simp

theorem yields_modify_bind {next : Unit → Step σ β} {result : β} :
    ((modify change : Step σ Unit) >>= next).Yields state result after ↔
      (next ()).Yields (change state) result after := Iff.rfl

theorem yields_modifyGet {change : σ → α × σ} :
    (modifyGet change : Step σ α).Yields state result after ↔
      result = (change state).1 ∧ after = (change state).2 := by
  show Except.ok (change state).1 = .ok result ∧ (change state).2 = after ↔ _
  rw [Except.ok.injEq, eq_comm, @eq_comm _ (change state).2 after]

/-- A note changes neither the result nor the state. -/
theorem yields_report_bind {next : Unit → Step σ β} {result : β} :
    (report note >>= next).Yields state result after ↔
    (next ()).Yields state result after := Iff.rfl

theorem yields_report {result : Unit} :
    (report note : Step σ Unit).Yields state result after ↔ after = state := by
  show Except.ok () = .ok result ∧ state = after ↔ _
  rw [@eq_comm _ state after]
  simp

theorem yields_reportAll_bind {next : Unit → Step σ β} {result : β} :
    (reportAll notes >>= next).Yields state result after ↔
    (next ()).Yields state result after := Iff.rfl

theorem not_yields_stop : ¬ (stop failure : Step σ α).Yields state result after := by
  rintro ⟨ended, _⟩
  cases ended

theorem not_yields_contradict :
    ¬ (contradict cause : Step σ α).Yields state result after := not_yields_stop

theorem not_yields_refuse {error : ResolutionError} :
    ¬ (refuse error : Step σ α).Yields state result after := not_yields_stop

theorem not_yields_breach {cause : Breach} :
    ¬ (breach cause : Step σ α).Yields state result after := not_yields_stop

/-- A computation that goes on only if nothing contradicts it. -/
theorem yields_unless_contradict [Decidable contradicted] {next : Unit → Step σ α} :
    (if contradicted then contradict cause >>= next else next ()).Yields state result after ↔
      ¬ contradicted ∧ (next ()).Yields state result after := by
  split
  · next holds =>
    refine iff_of_false ?_ fun both => both.1 holds
    rintro ⟨ended, _⟩
    cases ended
  · next fails => exact (and_iff_right fails).symm

/-- A checked result goes on with its value and leaves the state alone. -/
theorem yields_lift_bind {result : β} :
    ((liftM checked : Step σ α) >>= next).Yields state result after ↔
      ∃ v, checked = .ok v ∧ (next v).Yields state result after := by
  cases checked with
  | error cause =>
    constructor
    · rintro ⟨ended, _⟩
      cases ended
    · rintro ⟨_, no, _⟩
      cases no
  | ok v =>
    constructor
    · intro ran
      exact ⟨v, rfl, ran⟩
    · rintro ⟨_, same, ran⟩
      cases same
      exact ran

theorem yields_lift : (liftM checked : Step σ α).Yields state result after ↔
      checked = .ok result ∧ after = state := by
  cases checked with
  | error cause =>
    constructor
    · rintro ⟨ended, _⟩
      cases ended
    · rintro ⟨no, _⟩
      cases no
  | ok v =>
    show Except.ok v = .ok result ∧ state = after ↔ _
    rw [Except.ok.injEq, Except.ok.injEq, @eq_comm _ state after]

/-- A search with a checked question leaves the state alone, and what it finds passes. -/
theorem yields_findM {list : List α} {found : Option α} (ran : (list.findM? fun elem =>
      (liftM (question elem) : Step σ Bool)).Yields state found after) :
    after = state ∧ ∀ elem ∈ found, elem ∈ list ∧ question elem = .ok true := by
  induction list with
  | nil =>
    obtain ⟨rfl, rfl⟩ := yields_pure.mp ran
    exact ⟨rfl, nofun⟩
  | cons elem rest ih =>
    unfold List.findM? at ran
    obtain ⟨answer, asked, ran⟩ := yields_lift_bind.mp ran
    cases answer with
    | true =>
      obtain ⟨rfl, rfl⟩ := yields_pure.mp ran
      refine ⟨rfl, fun other isFound => ?_⟩
      cases isFound
      exact ⟨List.mem_cons_self, asked⟩
    | false =>
      obtain ⟨same, passes⟩ := ih ran
      exact ⟨same, fun one isFound =>
        ⟨List.mem_cons_of_mem _ (passes one isFound).1, (passes one isFound).2⟩⟩

theorem yields_within {afterwards : τ} : (step.within part replace).Yields outer result afterwards ↔
      ∃ inner, step.Yields (part outer) result inner ∧ afterwards = replace outer inner := by
  unfold Yields within
  constructor
  · rintro ⟨ended, rfl⟩
    exact ⟨_, ⟨ended, rfl⟩, rfl⟩
  · rintro ⟨inner, ⟨ended, rfl⟩, rfl⟩
    exact ⟨ended, rfl⟩

/-! ### What is left behind, however a computation ends -/

/-- The state a computation leaves, whether it ends or stops. -/
def leaves (step : Step σ α) (state : σ) : σ := (step state).state

theorem Yields.leaves_eq (ran : step.Yields state v after) : step.leaves state = after := ran.2

theorem yields_of_result (ended : (step state).result = .ok v) :
    step.Yields state v (step.leaves state) := ⟨ended, rfl⟩

theorem yields_leaves (ends : (step state).result.toOption.isSome = true) :
    ∃ v, step.Yields state v (step.leaves state) := by
  cases ended : (step state).result with
  | error failure =>
    rw [ended] at ends
    cases ends
  | ok v => exact ⟨v, yields_of_result ended⟩

/-- What comes second matters only where the first computation leads. -/
theorem bind_congr_of_yields {next' : α → Step σ β}
    (same : ∀ v mid, start.Yields state v mid → next v mid = next' v mid) :
    (start >>= next) state = (start >>= next') state := by
  show andThen start next state = andThen start next' state
  cases ended : (start state).result with
  | error failure => simp only [andThen, ended]
  | ok v => simp only [andThen, ended, same v _ ⟨ended, rfl⟩]

/-- What holds of the state after the first of two computations, and of the state after the
second one whenever it is reached, holds of what both leave together. -/
theorem leaves_bind (stopped : holds (start.leaves state))
    (reached : ∀ v mid, start.Yields state v mid → holds ((next v).leaves mid)) :
    holds ((start >>= next).leaves state) := by
  show holds (andThen start next state).state
  cases ended : (start state).result with
  | error failure =>
    simp only [andThen, ended]
    exact stopped
  | ok v =>
    simp only [andThen, ended]
    exact reached v _ ⟨ended, rfl⟩

theorem Yields.leaves_bind (ran : start.Yields state v mid) :
    (start >>= next).leaves state = (next v).leaves mid := by
  obtain ⟨ended, rfl⟩ := ran
  show (andThen start next state).state = _
  simp only [andThen, ended]
  rfl

theorem leaves_get_bind {next : σ → Step σ β} :
    ((get : Step σ σ) >>= next).leaves state = (next state).leaves state := rfl

theorem leaves_unless_contradict [Decidable contradicted] {next : Unit → Step σ α}
    (stopped : holds state) (goesOn : holds ((next ()).leaves state)) :
    holds ((if contradicted then contradict cause >>= next else next ()).leaves state) := by
  split
  · exact stopped
  · exact goesOn

theorem leaves_lift : (liftM checked : Step σ α).leaves state = state := by
  cases checked <;> rfl

/-! ### Failures -/

/-- If a computation fails, the state it leaves accounts for that. -/
def FailsFor (step : Step σ α) (account : σ → Failure → Prop) (state : σ) : Prop :=
  ∀ failure, (step state).result = .error failure → account (step.leaves state) failure

/-- An error has a reason. Nothing is said of breaches. -/
def onError (reason : σ → ResolutionError → Prop) (left : σ) : Failure → Prop
  | .error error => reason left error
  | .breach _ => True

/-- A breach has an excuse. Nothing is said of errors. -/
def onBreach (excuse : σ → Prop) (left : σ) : Failure → Prop
  | .error _ => True
  | .breach _ => excuse left

/-- A computation breaks no rule, unless the state it leaves is an excuse for that. An error is no
breach. -/
def SafeUnless (step : Step σ α) (excuse : σ → Prop) (state : σ) : Prop :=
  ∀ cause, (step state).result = .error (.breach cause) → excuse (step.leaves state)

section

variable {account : σ → Failure → Prop}

theorem Yields.fails (ran : step.Yields state v after) : step.FailsFor account state := by
  intro failure failed
  cases ran.1.symm.trans failed

theorem fails_pure : (pure v : Step σ α).FailsFor account state := Yields.fails ⟨rfl, rfl⟩

theorem fails_modify : (modify change : Step σ Unit).FailsFor account state :=
  Yields.fails ⟨rfl, rfl⟩

theorem fails_report : (report note : Step σ Unit).FailsFor account state :=
  Yields.fails ⟨rfl, rfl⟩

theorem fails_stop (accounted : account state failure) :
    (stop failure : Step σ α).FailsFor account state := by
  intro failure failed
  cases failed
  exact accounted

theorem fails_bind (fails : start.FailsFor account state)
    (goesOn : ∀ v mid, start.Yields state v mid → (next v).FailsFor account mid) :
    (start >>= next).FailsFor account state := by
  show (andThen start next).FailsFor account state
  intro failure
  unfold leaves
  cases ended : (start state).result with
  | error cause =>
    simp only [andThen, ended, Except.error.injEq]
    rintro rfl
    exact fails cause ended
  | ok v =>
    simp only [andThen, ended]
    exact goesOn v _ ⟨ended, rfl⟩ failure

theorem Yields.fails_bind {mid : σ} (ran : start.Yields state v mid)
    (goesOn : (next v).FailsFor account mid) : (start >>= next).FailsFor account state := by
  refine Step.fails_bind ran.fails fun one _ again => ?_
  obtain rfl : v = one := Except.ok.inj (ran.1.symm.trans again.1)
  obtain rfl := ran.2.symm.trans again.2
  exact goesOn

theorem fails_get_bind {next : σ → Step σ β} : ((get : Step σ σ) >>= next).FailsFor account state ↔
    (next state).FailsFor account state := Iff.rfl

theorem fails_modify_bind {next : Unit → Step σ β} :
    ((modify change : Step σ Unit) >>= next).FailsFor account state ↔
      (next ()).FailsFor account (change state) := Iff.rfl

theorem fails_report_bind {next : Unit → Step σ β} :
    (report note >>= next).FailsFor account state ↔ (next ()).FailsFor account state := Iff.rfl

theorem fails_reportAll_bind {next : Unit → Step σ β} :
    (reportAll notes >>= next).FailsFor account state ↔ (next ()).FailsFor account state := Iff.rfl

section

variable (accounted : ∀ cause, checked = .error cause → account state (.breach cause))

include accounted

/-- A check can only be breached. -/
theorem fails_lift : (liftM checked : Step σ α).FailsFor account state := by
  cases checked with
  | ok v => exact Yields.fails ⟨rfl, rfl⟩
  | error cause => exact fails_stop (accounted cause rfl)

theorem fails_lift_bind (goesOn : ∀ v, checked = .ok v → (next v).FailsFor account state) :
    ((liftM checked : Step σ α) >>= next).FailsFor account state := by
  refine fails_bind (fails_lift accounted) fun v mid ran => ?_
  obtain ⟨passed, rfl⟩ := yields_lift.mp ran
  exact goesOn v passed

end

theorem fails_ok_bind (passes : checked = .ok v) (goesOn : (next v).FailsFor account state) :
    ((liftM checked : Step σ α) >>= next).FailsFor account state :=
  (yields_lift.mpr ⟨passes, rfl⟩).fails_bind goesOn

/-- A search fails only as its question does. -/
theorem fails_findM {list : List α} (accounted : ∀ elem ∈ list, ∀ cause,
      question elem = .error cause → account state (.breach cause)) :
    (list.findM? fun elem => (liftM (question elem) : Step σ Bool)).FailsFor account state := by
  induction list with
  | nil => exact fails_pure
  | cons elem rest ih =>
    unfold List.findM?
    refine fails_lift_bind (accounted elem List.mem_cons_self) fun answer _ => ?_
    cases answer with
    | true => exact fails_pure
    | false => exact ih fun one mem => accounted one (List.mem_cons_of_mem _ mem)

theorem fails_unless_contradict [Decidable contradicted] {next : Unit → Step σ α}
    (accounted : account state (.error (.internal cause)))
    (goesOn : ¬ contradicted → (next ()).FailsFor account state) :
    (if contradicted then contradict cause >>= next else next ()).FailsFor account state := by
  split
  · exact fails_bind (fails_stop accounted) fun _ _ no => absurd no not_yields_contradict
  · next right => exact goesOn right

theorem fails_within {account : τ → Failure → Prop} :
    (step.within part replace).FailsFor account outer ↔
      step.FailsFor (fun inner => account (replace outer inner)) (part outer) := Iff.rfl

end

/-! ### Parts of the state that stay -/

/-- A computation leaves a part of the state as it is and makes no note of some kind, however it
ends. -/
def Preserves {γ : Type} (step : Step σ α) (view : σ → γ) (kind : Note → Bool) : Prop :=
  ∀ state, view (step.leaves state) = view state ∧ ∀ note ∈ (step state).notes, kind note = false

section

variable {γ δ : Type} {view : σ → γ} {kind : Note → Bool}

theorem preserves_pure : (pure v : Step σ α).Preserves view kind :=
  fun _ => ⟨rfl, List.forall_mem_nil _⟩

theorem preserves_get : (get : Step σ σ).Preserves view kind :=
  fun _ => ⟨rfl, List.forall_mem_nil _⟩

theorem preserves_report (others : kind note = false) :
    (report note : Step σ Unit).Preserves view kind :=
  fun _ => ⟨rfl, fun _ mem => List.mem_singleton.mp mem ▸ others⟩

theorem preserves_reportAll (others : ∀ note ∈ notes, kind note = false) :
    (reportAll notes : Step σ Unit).Preserves view kind := fun _ => ⟨rfl, others⟩

theorem preserves_stop : (stop failure : Step σ α).Preserves view kind :=
  fun _ => ⟨rfl, List.forall_mem_nil _⟩

theorem preserves_lift : (liftM checked : Step σ α).Preserves view kind := by
  cases checked with
  | error cause => exact preserves_stop
  | ok v => exact preserves_pure

theorem preserves_modify (same : ∀ state, view (change state) = view state) :
    (modify change : Step σ Unit).Preserves view kind :=
  fun state => ⟨same state, List.forall_mem_nil _⟩

theorem preserves_bind (stays : start.Preserves view kind)
    (goesOn : ∀ v, (next v).Preserves view kind) : (start >>= next).Preserves view kind := by
  show (andThen start next).Preserves view kind
  intro state
  obtain ⟨same, others⟩ := stays state
  unfold leaves at same ⊢
  cases ended : (start state).result with
  | error failure =>
    simp only [andThen, ended]
    exact ⟨same, others⟩
  | ok v =>
    simp only [andThen, ended]
    obtain ⟨same', others'⟩ := goesOn v (start state).state
    refine ⟨same'.trans same, fun note mem => ?_⟩
    rcases List.mem_append.mp mem with early | late
    · exact others note early
    · exact others' note late

theorem preserves_get_bind {next : σ → Step σ β} (goesOn : ∀ state,
      view ((next state).leaves state) = view state ∧
        ∀ note ∈ (next state state).notes, kind note = false) :
    ((get : Step σ σ) >>= next).Preserves view kind := goesOn

theorem preserves_unless_contradict [Decidable contradicted] {next : Unit → Step σ α}
    (goesOn : (next ()).Preserves view kind) :
    (if contradicted then contradict cause >>= next else next ()).Preserves view kind := by
  split
  · exact preserves_bind preserves_stop fun _ => goesOn
  · exact goesOn

theorem preserves_within {outside : τ → δ} (stays : step.Preserves view kind)
    (same : ∀ outer inner, view inner = view (part outer) →
      outside (replace outer inner) = outside outer) :
    (step.within part replace).Preserves outside kind :=
  fun outer => ⟨same outer _ (stays (part outer)).1, (stays (part outer)).2⟩

/-- Less is seen of the state. -/
theorem Preserves.less (stays : step.Preserves view kind) (seen : γ → δ) :
    step.Preserves (fun state => seen (view state)) fun _ => false :=
  fun state => ⟨congrArg seen (stays state).1, fun _ _ => rfl⟩

end

/-! ### States with the notes that led to them -/

/-- A computation that ends leads from states and notes for which something holds to a result and
to states and notes for which something else does. -/
def Leads (step : Step σ α) (pre : σ → List Note → Prop) (post : α → σ → List Note → Prop) : Prop :=
  ∀ state notes, pre state notes → ∀ v after, step.Yields state v after →
    post v after (notes ++ (step state).notes)

section

variable {pre : σ → List Note → Prop} {during : α → σ → List Note → Prop}
  {post : β → σ → List Note → Prop}

theorem leads_pure (holds : ∀ state notes, pre state notes → during v state notes) :
    (pure v : Step σ α).Leads pre during := by
  intro state notes before result after ran
  obtain ⟨rfl, rfl⟩ := yields_pure.mp ran
  exact (List.append_nil notes).symm ▸ holds after notes before

theorem leads_stop : (stop failure : Step σ α).Leads pre during :=
  fun _ _ _ _ _ ran => absurd ran not_yields_stop

theorem leads_bind (starts : start.Leads pre during)
    (goesOn : ∀ v, (next v).Leads (during v) post) : (start >>= next).Leads pre post := by
  intro state notes before result after ran
  obtain ⟨v, mid, first, rest⟩ := yields_bind.mp ran
  have made : ((start >>= next) state).notes = (start state).notes ++ (next v mid).notes := by
    obtain ⟨ended, rfl⟩ := first
    show (andThen start next state).notes = _
    simp only [andThen, ended]
  rw [made, ← List.append_assoc]
  exact goesOn v mid _ (starts state notes before v mid first) result after rest

theorem Leads.imp {post' : α → σ → List Note → Prop} (leads : step.Leads pre during)
    (weaker : ∀ v after notes, during v after notes → post' v after notes) : step.Leads pre post' :=
  fun state notes before v after ran => weaker v after _ (leads state notes before v after ran)

theorem Leads.weaken {pre' : σ → List Note → Prop} (leads : step.Leads pre' during)
    (stronger : ∀ state notes, pre state notes → pre' state notes) : step.Leads pre during :=
  fun state notes before => leads state notes (stronger state notes before)

theorem leads_of_pre (leads : ∀ state notes, pre state notes → step.Leads pre during) :
    step.Leads pre during :=
  fun state notes before => leads state notes before state notes before

/-- Looking at the state tells what holds of it. -/
theorem leads_get_bind {next : σ → Step σ β} {pre : σ → List Note → Prop}
    (goesOn : ∀ state, (next state).Leads (fun same notes => same = state ∧ pre state notes) post) :
    ((get : Step σ σ) >>= next).Leads pre post :=
  fun state notes before v after ran => goesOn state state notes ⟨rfl, before⟩ v after ran

theorem leads_unless_contradict [Decidable contradicted] {next : Unit → Step σ α}
    (goesOn : (next ()).Leads pre during) :
    (if contradicted then contradict cause >>= next else next ()).Leads pre during := by
  split
  · intro state notes _ v after ran
    obtain ⟨_, _, no, _⟩ := yields_bind.mp ran
    exact absurd no not_yields_contradict
  · exact goesOn

/-- A checked result leaves the state alone and makes no note. -/
theorem leads_lift_bind (goesOn : ∀ v, checked = .ok v → (next v).Leads pre post) :
    ((liftM checked : Step σ α) >>= next).Leads pre post := by
  cases checked with
  | error cause =>
    intro state notes _ v after ran
    obtain ⟨_, no, _⟩ := yields_lift_bind.mp ran
    cases no
  | ok v => exact goesOn v rfl

end

end Step

end RegisterChains

/-
This file defines computations that work on a state, may stop early, and make notes of
what they do. The state and the notes are kept when a computation stops, because both can
still be looked at. Notes only come out: no computation depends on the notes made before.
-/

import RegisterChains.Note

namespace RegisterChains

/-- What a computation leaves behind: its result or the reason it stopped, the state
reached, and the notes made on the way, oldest first. -/
structure Outcome (σ α : Type) where
  result : Except Failure α
  state : σ
  notes : List Note

def Step (σ α : Type) : Type := σ → Outcome σ α

namespace Step

variable {σ τ α β : Type}

def run (step : Step σ α) (state : σ) : Outcome σ α := step state

/-- Gives a result and does nothing. -/
def done (value : α) : Step σ α := fun state => ⟨.ok value, state, []⟩

/-- Goes on with the result of a computation, unless it stopped. -/
def andThen (first : Step σ α) (next : α → Step σ β) : Step σ β := fun state =>
  let before := first state
  match before.result with
  | .ok value =>
    let after := next value before.state
    ⟨after.result, after.state, before.notes ++ after.notes⟩
  | .error failure => ⟨.error failure, before.state, before.notes⟩

instance : Monad (Step σ) where
  pure := done
  bind := andThen

instance : MonadStateOf σ (Step σ) where
  get := fun state => ⟨.ok state, state, []⟩
  set := fun state _ => ⟨.ok (), state, []⟩
  modifyGet := fun f state => ⟨.ok (f state).1, (f state).2, []⟩

def stop (failure : Failure) : Step σ α := fun state => ⟨.error failure, state, []⟩

def refuse (error : ResolutionError) : Step σ α := stop (.error error)

def contradict (cause : Inconsistency) : Step σ α := refuse (.internal cause)

def breach (cause : Breach) : Step σ α := stop (.breach cause)

def report (note : Note) : Step σ Unit := fun state => ⟨.ok (), state, [note]⟩

def reportAll (notes : List Note) : Step σ Unit := fun state => ⟨.ok (), state, notes⟩

/-- A result that may be a breach, as a computation. -/
def ofExcept : Except Breach α → Step σ α
  | .ok value => done value
  | .error cause => breach cause

instance : MonadLift (Except Breach) (Step σ) := ⟨ofExcept⟩

def within (part : τ → σ) (replace : τ → σ → τ) (step : Step σ α) : Step τ α := fun state =>
  let inner := step (part state)
  ⟨inner.result, replace state inner.state, inner.notes⟩

end Step

end RegisterChains

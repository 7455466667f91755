/-
This file plans the copies that mend a run. For each member there are choices: keep the
register, read another one that holds the same value, overwrite a copy that is not read any
more, or take a fresh register. The search goes through the choices depth first, leaves a
partial plan as soon as it does not fit, and finds a plan with the fewest copies; among
those, the first one in the order of choices. Copies of a plan that stand side by side are
then gathered into batches.
-/

import RegisterChains.Chain.Fit

namespace RegisterChains

inductive Choice where
  | keep
  | reuse (register : Register)
  | recycle (register : Register)
  | fresh
deriving DecidableEq, Repr

namespace Choice

def needsCopy : Choice → Bool
  | recycle _ | fresh => true
  | keep | reuse _ => false

def cost (choice : Choice) : Nat := choice.needsCopy.toNat

/-- The position of the candidate that a choice leads to. -/
def slot (register : Register) : Choice → Slot
  | keep => .register register
  | reuse other | recycle other => .register other
  | fresh => .fresh

end Choice

/-! ### Searching -/

/-- The state of a search: the best plan so far with its cost, and the notes made of partial
plans that do not fit, newest first. -/
structure Search where
  best : Option (Nat × List Choice)
  notes : List Note

namespace Search

def start : Search := ⟨none, []⟩

/-- Whether a plan of this cost would be the best so far. -/
def improves (search : Search) (cost : Nat) : Bool :=
  search.best.all fun (least, _) => decide (cost < least)

/-- Whether there is a plan without copies, so that none can be better. -/
def settled (search : Search) : Bool :=
  search.best.any fun (least, _) => least == 0

def reject (search : Search) (slots : List Slot) (conflict : Conflict) : Search :=
  { search with notes := .rejected slots conflict :: search.notes }

/-- Goes through the choices for the members that are left, given the choices made for those
before, the positions they lead to, and their cost. Members that are left count as
undecided. -/
def explore (judge : List Slot → Except Conflict Fit) :
    List (Register × List Choice) → List Choice → List Slot → Nat → Search → Search
  | [], chosen, _, cost, search =>
    if search.improves cost then { search with best := some (cost, chosen) } else search
  | (register, choices) :: rest, chosen, slots, cost, search =>
    if search.improves cost then
      choices.foldl (fun search choice =>
        if search.settled then search
        else
          let decided := slots ++ [choice.slot register]
          let candidate := decided ++ rest.map fun _ => .undecided
          match judge candidate with
          | .ok _ =>
            explore judge rest (chosen ++ [choice]) decided (cost + choice.cost) search
          | .error conflict => search.reject candidate conflict) search
    else search

def run (judge : List Slot → Except Conflict Fit) (members : List (Register × List Choice)) :
    Search :=
  explore judge members [] [] 0 start

end Search

/-! ### Batches -/

inductive Batch where
  | hoist (index : Nat)
  /-- The copies of `count` members from `start` on, in front of the instruction. -/
  | inPlace (start count : Nat)
deriving DecidableEq, Repr

namespace Batch

/-- Whether a batch adds an instruction to its block. Those in the preamble run once and do
not count. -/
def isInPlace : Batch → Bool
  | hoist _ => false
  | inPlace _ _ => true

/-- Adds the copy of a member to the last batch, if that one ends right before it and has
room, or else as a batch of its own. -/
def extend (width : Nat) (batches : List Batch) (index : Nat) : List Batch :=
  match batches.getLast? with
  | some (inPlace start count) =>
    if start + count = index && decide (count < width) then
      batches.dropLast ++ [inPlace start (count + 1)]
    else batches ++ [inPlace index 1]
  | _ => batches ++ [inPlace index 1]

/-- Gathers the copies of a plan into batches of at most `width` members. A copy into a
fresh register is made in the preamble if `hoistable` says so. -/
def gather (width : Nat) (hoistable : Nat → Bool) (choices : List Choice) : List Batch :=
  choices.zipIdx.foldl (fun batches (choice, index) =>
    if !choice.needsCopy then batches
    else if choice = .fresh && hoistable index then batches ++ [hoist index]
    else extend width batches index) []

end Batch

structure Plan where
  choices : List Choice
  batches : List Batch
deriving DecidableEq, Repr

namespace Plan

def cost (plan : Plan) : Nat := plan.batches.countP Batch.isInPlace

def freshCount (plan : Plan) : Nat := plan.choices.count .fresh

end Plan

end RegisterChains

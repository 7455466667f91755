/-
This file defines swizzles. A swizzle says which operand of a run each lane of a logical
vector reads, so the operands of a run can be moved around as long as the swizzle follows.
-/

import RegisterChains.Failure

namespace RegisterChains

/-- For each of the first `length` lanes, the operand of the run that the lane reads. -/
structure Swizzle where
  lanes : Vector UInt8 4
  length : UInt8
deriving DecidableEq, Repr

namespace Swizzle

/-- Four lanes that begin with a selection and are filled up with the first operand. -/
def padded (selection : List UInt8) : Vector UInt8 4 :=
  Vector.ofFn fun lane => (selection[lane.val]?).getD 0

/-- The swizzle with the given selection, of at most four lanes. -/
def ofLanes (selection : List UInt8) : Except Breach Swizzle :=
  if selection.length ≤ 4 then
    .ok ⟨padded selection, selection.length.toUInt8⟩
  else
    .error .tooManyLanes

/-- The swizzle of at most four lanes whose lanes read the operands in order. -/
def identity (length : Nat) : Except Breach Swizzle :=
  if length ≤ 4 then
    ofLanes ((List.range length).map Nat.toUInt8)
  else
    .error .tooManyLanes

def selection (swizzle : Swizzle) : List UInt8 :=
  swizzle.lanes.toList.take swizzle.length.toNat

def isIdentity (swizzle : Swizzle) : Bool :=
  swizzle.selection.zipIdx.all fun (lane, index) => lane.toNat == index

/-- Where an operand has gone when position `p` of a run takes the operand `order[p]`. An
operand that went nowhere keeps its place. -/
def moved (order : List Nat) (lane : UInt8) : UInt8 :=
  match order.idxOf? lane.toNat with
  | some position => position.toUInt8
  | none => lane

/-- The swizzle that reads, after the operands were moved by `order`, what this one read
before. -/
def permuted (swizzle : Swizzle) (order : List Nat) : Swizzle :=
  { swizzle with
    lanes := Vector.ofFn fun lane =>
      if lane.val < swizzle.length.toNat then moved order swizzle.lanes[lane]
      else swizzle.lanes[lane] }

/-- The letter of an operand. Only the first four operands have one. -/
def letter (lane : UInt8) : Except Breach Char :=
  match lane.toNat with
  | 0 => .ok 'x'
  | 1 => .ok 'y'
  | 2 => .ok 'z'
  | 3 => .ok 'w'
  | _ => .error .outOfRange

def text (swizzle : Swizzle) : Except Breach String := do
  let letters ← swizzle.selection.mapM letter
  return String.ofList letters

end Swizzle

end RegisterChains

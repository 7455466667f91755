/-
This file defines what a hardware register number has to be modulo two. In a run of
consecutive registers the requirement is stated for the first one and alternates from
there, so a requirement anywhere in a run fixes it everywhere.
-/

namespace RegisterChains

inductive Parity where
  | any
  | even
  | odd
deriving DecidableEq, Repr

namespace Parity

instance : Inhabited Parity := ⟨any⟩

def ofNumber (number : UInt32) : Parity :=
  if number % 2 = 0 then even else odd

/-- What the next register of a run needs. -/
def complement : Parity → Parity
  | any => any
  | even => odd
  | odd => even

/-- What the register `offset` places further needs. Parities alternate, so going back
the same distance asks the same question. -/
def atOffset (parity : Parity) (offset : Nat) : Parity :=
  if offset % 2 = 0 then parity else parity.complement

def isAny (parity : Parity) : Bool :=
  parity == any

def allows (parity : Parity) (number : UInt32) : Bool :=
  match parity with
  | any => true
  | even => number % 2 == 0
  | odd => number % 2 == 1

/-- Whether one number can meet both requirements. -/
def compatible (first second : Parity) : Bool :=
  first.isAny || second.isAny || first == second

def rank : Parity → Nat
  | any => 0
  | even => 1
  | odd => 2

instance : LT Parity := ⟨fun first second => first.rank < second.rank⟩

instance (first second : Parity) : Decidable (first < second) :=
  inferInstanceAs (Decidable (first.rank < second.rank))

def text : Parity → String
  | any => "any"
  | even => "even"
  | odd => "odd"

def ofText? (text : String) : Option Parity :=
  [any, even, odd].find? fun parity => parity.text == text

end Parity

end RegisterChains

/-
This file defines the operands of shader instructions. An operand is a kind and a number
within that kind. Only temporaries are virtual: their hardware numbers are still to be
chosen. Attributes, outputs and constants already have a hardware number, and an immediate
is a bit pattern with no register behind it.
-/

namespace RegisterChains

inductive Bank where
  | temp
  /-- Primary attributes, where inputs land. -/
  | primary
  | output
  | constant
deriving DecidableEq, Repr

namespace Bank

def name : Bank → String
  | temp => "Temp"
  | primary => "Primary"
  | output => "Output"
  | constant => "Constant"

def label : Bank → String
  | temp => "temp"
  | primary => "primary"
  | output => "output"
  | constant => "constant"

def ofLabel? (label : String) : Option Bank :=
  [temp, primary, output, constant].find? fun bank => bank.label == label

end Bank

inductive RegisterKind where
  | temp
  | primary
  | output
  /-- A hardware constant register, whose value is known in advance. -/
  | constant
  | immediate
deriving DecidableEq, Repr

namespace RegisterKind

def name : RegisterKind → String
  | temp => "Temp"
  | primary => "Primary"
  | output => "Output"
  | constant => "Constant"
  | immediate => "Immediate"

end RegisterKind

/-- An operand: a kind and a number within it. -/
structure Register where
  kind : RegisterKind
  number : UInt32
deriving DecidableEq, Repr

namespace Register

def temp (number : UInt32) : Register := ⟨.temp, number⟩

def primary (number : UInt32) : Register := ⟨.primary, number⟩

def output (number : UInt32) : Register := ⟨.output, number⟩

def constant (number : UInt32) : Register := ⟨.constant, number⟩

def immediate (bits : UInt32) : Register := ⟨.immediate, bits⟩

def ofFloat32 (value : Float32) : Register := immediate value.toBits

/-- Whether the hardware number is still to be chosen. -/
def isVirtual (register : Register) : Bool :=
  register.kind == .temp

def isImmediate (register : Register) : Bool :=
  register.kind == .immediate

/-- The bank of an operand that already has a hardware number. -/
def hardwareBank (register : Register) : Option Bank :=
  match register.kind with
  | .primary => some .primary
  | .output => some .output
  | .constant => some .constant
  | .temp | .immediate => none

def isConstant (register : Register) : Bool :=
  register.kind == .constant || register.kind == .immediate

/-- The digits of a bit pattern in base sixteen, without leading zeros. -/
def hexDigits (bits : UInt32) : String :=
  String.ofList (Nat.toDigits 16 bits.toNat)

def text (register : Register) : String :=
  match register.kind with
  | .temp => "r" ++ toString register.number.toNat
  | .primary => "pa" ++ toString register.number.toNat
  | .output => "o" ++ toString register.number.toNat
  | .constant => "c" ++ toString register.number.toNat
  | .immediate => "#0x" ++ hexDigits register.number

/-- An operand spelled out field by field, as candidate lists show it. -/
def describe (register : Register) : String :=
  "Reg \x7b kind: " ++ register.kind.name ++ ", number: " ++
    toString register.number.toNat ++ " \x7d"

def listText (registers : List Register) : String :=
  ", ".intercalate (registers.map text)

/-! ### Reading -/

def digitValue (base : Nat) (digit : Char) : Option Nat :=
  let value :=
    if digit.isDigit then some (digit.toNat - '0'.toNat)
    else if 'a' ≤ digit && digit ≤ 'f' then some (digit.toNat - 'a'.toNat + 10)
    else none
  value.filter (· < base)

/-- The number that digits spell, if there are some and it fits 32 bits. -/
def numberOf? (base : Nat) (digits : List Char) : Option UInt32 := do
  let values ← digits.mapM (digitValue base)
  let number := values.foldl (fun number digit => number * base + digit) 0
  if digits.isEmpty || decide (UInt32.size ≤ number) then none else some number.toUInt32

def ofText? (text : String) : Option Register :=
  match text.toList with
  | '#' :: '0' :: 'x' :: digits => (numberOf? 16 digits).map immediate
  | 'p' :: 'a' :: digits => (numberOf? 10 digits).map primary
  | 'r' :: digits => (numberOf? 10 digits).map temp
  | 'o' :: digits => (numberOf? 10 digits).map output
  | 'c' :: digits => (numberOf? 10 digits).map constant
  | _ => none

end Register

end RegisterChains

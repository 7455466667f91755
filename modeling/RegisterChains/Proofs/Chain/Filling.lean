/-
This file is about candidates with places that do not name a register yet. A register without a
node has no constraints, so places for fresh registers can be filled with any registers that have
none, if each of them is put in one place only: the candidate still fits. A candidate that fits
also fits while its last places are undecided, if no bank holds longer chains than the
temporaries do.
-/

import RegisterChains.Proofs.Chain.Fitting

namespace RegisterChains

namespace ChainGraph

open List

variable {g : ChainGraph} {slots : List Slot} {spare regs : List Register}
  {parity : Parity} {fit : Fit}

/-! ### Filling the places of a candidate -/

/-- The places of a candidate are filled: a register stands for itself, and fresh places take the
registers of a list, one after the other. -/
inductive Filled : List Slot → List Register → List Register → Prop where
  | nil (spare : List Register) : Filled [] spare []
  | register {slots : List Slot} {spare regs : List Register} (register : Register) :
    Filled slots spare regs →
    Filled (.register register :: slots) spare (register :: regs)
  | fresh {slots : List Slot} {spare regs : List Register} (register : Register) :
    Filled slots spare regs →
    Filled (.fresh :: slots) (register :: spare) (register :: regs)

/-- No register is named in two places. -/
def Distinct (slots : List Slot) : Prop :=
  slots.Pairwise fun a b => ∀ r, a = .register r → b ≠ .register r

theorem distinct_of_operandConflict (clear : operandConflict slots = none) : Distinct slots := by
  rw [operandConflict_slots_eq_none] at clear
  refine pairwise_iff_getElem.mpr fun early late lt bound order r atEarly atLate => ?_
  have placed : slots[late]? = some (.register r) := by
    rw [getElem?_eq_getElem bound, atLate]
  refine (clear late r placed).2 (mem_take_iff_getElem.mpr ⟨early, by omega, atEarly⟩)

namespace Filled

section

variable (filled : Filled slots spare regs)

include filled

theorem length_eq : regs.length = slots.length := by
  induction filled with
  | nil => rfl
  | register r _ ih => simp [ih]
  | fresh r _ ih => simp [ih]

/-- Every register stands for itself or is one of those that were to spare. -/
theorem mem {r : Register} (isMem : r ∈ regs) : .register r ∈ slots ∨ r ∈ spare := by
  induction filled with
  | nil => cases isMem
  | register own _ ih =>
    rcases mem_cons.mp isMem with rfl | later
    · exact .inl mem_cons_self
    · exact (ih later).imp_left (mem_cons_of_mem _)
  | fresh new _ ih =>
    rcases mem_cons.mp isMem with rfl | later
    · exact .inr mem_cons_self
    · exact (ih later).imp (mem_cons_of_mem _) (mem_cons_of_mem _)

theorem nodup (distinct : Distinct slots) (single : spare.Nodup)
    (apart : ∀ r ∈ spare, .register r ∉ slots) : regs.Nodup := by
  induction filled with
  | nil => exact nodup_nil
  | register own filled ih =>
    obtain ⟨unlike, nodupRest⟩ := pairwise_cons.mp distinct
    refine nodup_cons.mpr ⟨fun repeated => ?_, ih nodupRest single
      fun r mem named => apart r mem (mem_cons_of_mem _ named)⟩
    rcases filled.mem repeated with named | fresh
    · exact unlike _ named own rfl rfl
    · exact apart own fresh mem_cons_self
  | fresh new filled ih =>
    obtain ⟨_, nodupRest⟩ := pairwise_cons.mp distinct
    obtain ⟨unused, single⟩ := nodup_cons.mp single
    refine nodup_cons.mpr ⟨fun repeated => ?_, ih nodupRest single
      fun r mem named =>
        apart r (mem_cons_of_mem _ mem) (mem_cons_of_mem _ named)⟩
    rcases filled.mem repeated with named | fresh
    · exact apart new mem_cons_self (mem_cons_of_mem _ named)
    · exact unused fresh

end

/-! ### What is seen of a filled candidate -/

section

variable (filled : Filled slots spare regs)

include filled

theorem existingNodes_eq (bare : ∀ r ∈ spare, g.find r = none) :
    g.existingNodes (regs.map .register) = g.existingNodes slots := by
  induction filled with
  | nil => rfl
  | register r _ ih =>
    exact congrArg (g.find r :: ·) (ih bare)
  | fresh r _ ih =>
    have others := ih fun one mem =>
      bare one (mem_cons_of_mem _ mem)
    show g.find r :: g.existingNodes _ = none :: g.existingNodes _
    rw [bare r mem_cons_self, others]

theorem decided_eq (i : Nat) : decided (regs.map .register) i = decided slots i := by
  induction filled generalizing i with
  | nil => rfl
  | register r _ ih | fresh r _ ih =>
    cases i with
    | zero => rfl
    | succ i => exact ih i

theorem neighbourConflict_eq (existing : List (Option NodeId)) (ms : List Member) :
    g.neighbourConflict (regs.map .register) existing ms =
      g.neighbourConflict slots existing ms := by
  unfold neighbourConflict
  simp only [filled.decided_eq, length_map, filled.length_eq]

theorem any_isNumbered (virt : ∀ r ∈ spare, r.isVirtual = true) :
    (regs.map Slot.register).any isNumbered = slots.any isNumbered := by
  induction filled with
  | nil => rfl
  | register r _ ih =>
    exact congrArg (isNumbered (.register r) || ·) (ih virt)
  | fresh r _ ih =>
    have others := ih fun one mem =>
      virt one (mem_cons_of_mem _ mem)
    have plain : isNumbered (.register r) = false := by
      show r.hardwareBank.isSome = false
      rw [hardwareBank_of_isVirtual (virt r mem_cons_self)]
      rfl
    rw [map_cons, any_cons, any_cons, plain, others]
    rfl

/-- Where there are no fresh places, nothing is filled. -/
theorem eq_of_registers (named : ∀ slot ∈ slots, slot ≠ .fresh) : slots = regs.map .register := by
  induction filled with
  | nil => rfl
  | register r _ ih =>
    rw [map_cons, ih fun slot mem =>
      named slot (mem_cons_of_mem _ mem)]
  | fresh r _ _ => exact absurd rfl (named .fresh mem_cons_self)

end

end Filled

/-! ### Judging a filled candidate -/

/-- Every place of a hardware run names a hardware register. -/
theorem isNumbered_of_fitNumbered (fits : g.fitNumbered slots parity = .ok fit) {slot : Slot}
    (mem : slot ∈ slots) : isNumbered slot = true := by
  obtain ⟨i, placed⟩ := getElem?_of_mem mem
  unfold fitNumbered at fits
  split at fits
  · next first _ =>
    split at fits
    · cases fits
    · next bank isBank =>
      split at fits
      · cases fits
      · next ascending =>
        have ascends := find?_eq_none.mp ascending (slot, i) (mk_mem_zipIdx_iff_getElem?.mpr placed)
        cases slot with
        | register op =>
          have kind : op.kind = first.kind := by
            simp only [ChainGraph.ascends, Bool.not_eq_true, Bool.not_eq_false', Bool.and_eq_true,
              beq_iff_eq] at ascends
            exact ascends.1
          show op.hardwareBank.isSome = true
          rw [Register.hardwareBank, kind, ← Register.hardwareBank, isBank]
          rfl
        | fresh | undecided => exact absurd rfl ascends
  · cases fits

/-- A candidate that fits still fits when its fresh places are filled. -/
theorem Filled.fitOperands_eq_ok (filled : Filled slots spare regs) (single : spare.Nodup)
    (new : ∀ r ∈ spare, r.isVirtual = true ∧ g.find r = none ∧ .register r ∉ slots)
    (fits : g.fit slots parity = .ok fit) : g.fitOperands regs parity = .ok fit := by
  have numbered := filled.any_isNumbered fun r mem => (new r mem).1
  unfold fitOperands ChainGraph.fit at *
  rw [numbered]
  split at fits
  · have named : ∀ slot ∈ slots, slot ≠ .fresh := by
      rintro _ mem rfl
      cases isNumbered_of_fitNumbered fits mem
    rw [if_pos ‹_›, ← filled.eq_of_registers named]
    exact fits
  · rw [if_neg ‹_›]
    obtain ⟨clear, base, number, extent, parities, numbers, neighbours, extents, room, same⟩ :=
      fitVirtual_eq_ok.mp fits
    have existing := filled.existingNodes_eq fun r mem => (new r mem).2.1
    have members : g.members (regs.map .register) = g.members slots :=
      congrArg g.membersOf existing
    have distinct := filled.nodup (distinct_of_operandConflict clear) single
      fun r mem => (new r mem).2.2
    have notImmediate : ∀ r ∈ regs, r.isImmediate = false := by
      intro r mem
      rcases filled.mem mem with named | fresh
      · obtain ⟨i, placed⟩ := getElem?_of_mem named
        exact (operandConflict_slots_eq_none.mp clear i r placed).1
      · have temp := beq_iff_eq.mp (new r fresh).1
        rw [Register.isImmediate, temp]
        rfl
    refine fitVirtual_eq_ok.mpr ⟨operandConflict_eq_none.mpr ⟨distinct, notImmediate⟩, base, number,
      extent, ?_, ?_, ?_, ?_, room, ?_⟩
    · rw [members]
      exact parities
    · rw [existing, members]
      exact numbers
    · rw [existing, members, filled.neighbourConflict_eq]
      exact neighbours
    · rw [members, length_map, filled.length_eq]
      exact extents
    · rw [existing]
      exact same

/-- Fresh registers fit if the temporaries have room for them. -/
theorem fit_replicate_fresh (g : ChainGraph) {count : Nat} (room : count ≤ g.limit .temp)
    (parity : Parity) : ∃ fit, g.fit (replicate count .fresh) parity = .ok fit := by
  have unnumbered : ¬ (replicate count Slot.fresh).any isNumbered = true := by
    rw [any_eq_true]
    rintro ⟨slot, isMem, numbered⟩
    rw [eq_of_mem_replicate isMem] at numbered
    cases numbered
  have clear : operandConflict (replicate count Slot.fresh) = none := by
    refine operandConflict_slots_eq_none.mpr fun i op placed => ?_
    cases eq_of_mem_replicate (mem_of_getElem? placed)
  have noMember : g.members (replicate count .fresh) = [] := by
    refine eq_nil_iff_forall_not_mem.mpr fun mem isMem => ?_
    obtain ⟨placed, _⟩ := mem_membersOf.mp isMem
    unfold existingNodes at placed
    rw [map_replicate] at placed
    cases eq_of_mem_replicate (mem_of_getElem? placed)
  unfold ChainGraph.fit
  rw [if_neg unnumbered]
  refine ⟨_, fitVirtual_eq_ok.mpr ⟨clear, parity, none, ⟨none, .empty, 0, count⟩, ?_, ?_, ?_, ?_,
    ?_, rfl⟩⟩
  · rw [noMember]
    rfl
  · rw [noMember]
    rfl
  · rw [noMember]
    rfl
  · rw [noMember, length_replicate]
    rfl
  · simpa using room

/-! ### Places that are undecided -/

/-- A candidate of which only the first places have been decided. -/
def opened (count : Nat) (slots : List Slot) : List Slot :=
  slots.take count ++ (slots.drop count).map fun _ => .undecided

theorem Part.opened (count : Nat) (slots : List Slot) : Part (opened count slots) slots := by
  unfold ChainGraph.opened
  refine ⟨?_, fun i slot here => ?_⟩
  · rw [length_append, length_map, ← length_append, take_append_drop]
  · rcases Nat.lt_or_ge i (slots.take count).length with early | late
    · rw [getElem?_append_left early] at here
      exact (Part.take count slots).same i slot here
    · rw [getElem?_append_right late, getElem?_map, Option.map_eq_some_iff] at here
      obtain ⟨_, _, rfl⟩ := here
      exact .inl rfl

/-- Undecided places do not get in the way of a candidate. -/
theorem fitVirtual_opened (room : ∀ bank, g.limit bank ≤ g.limit .temp)
    (fits : g.fitVirtual slots parity = .ok fit) (count : Nat) :
    ∃ fit', g.fitVirtual (opened count slots) parity = .ok fit' := by
  rcases (Part.opened count slots).fitVirtual_cases fits with fits' | ⟨length, _, long, short⟩
  · exact fits'
  · exact absurd (short.trans (room fit.bank)) (Nat.not_le.mpr long)

end ChainGraph

end RegisterChains

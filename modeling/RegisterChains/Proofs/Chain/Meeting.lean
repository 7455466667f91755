/-
This file says when operands meet what a run asks for: they are hardware registers that ascend
from an allowed number, or the chains make them consecutive. A run that fits and is committed
meets it, and a bank has room for it. Both stay so when there are more constraints, and both hold
of every part of the run.
-/

import RegisterChains.Proofs.Chain.Fitting
import RegisterChains.Proofs.Chain.Committing

namespace RegisterChains

namespace ChainGraph

open List

variable {g after : ChainGraph} {ops piece post pre : List Register} {parity : Parity} {fit : Fit}
  {via : Bool}

/-- Hardware registers of one kind whose numbers ascend by one from an allowed number. -/
def Numeric (ops : List Register) (parity : Parity) : Prop :=
  ∃ first bank, ops.head? = some first ∧ first.hardwareBank = some bank ∧
    Ascending ops first ∧ parity.allows first.number = true

/-- Operands are as a run of this parity has to be. -/
def Meets (g : ChainGraph) (ops : List Register) (parity : Parity) : Prop :=
  Numeric ops parity ∨ (ops.all (·.isVirtual) = true ∧ g.RunHolds ops parity)

theorem Meets.refines (meets : g.Meets ops parity) (refines : g.Refines after) :
    after.Meets ops parity :=
  meets.imp_right fun ⟨virt, holds⟩ => ⟨virt, holds.refines refines⟩

theorem Numeric.part (numeric : Numeric ops parity) (split : ops = pre ++ piece ++ post)
    (filled : piece ≠ []) : Numeric piece .any := by
  obtain ⟨first, bank, starts, hardware, ascending, _⟩ := numeric
  obtain ⟨head, rest, rfl⟩ := exists_cons_of_ne_nil filled
  have shifted : ∀ i r, (head :: rest)[i]? = some r →
      r.kind = first.kind ∧ r.number.toNat = first.number.toNat + (pre.length + i) := by
    intro i r placed
    refine ascending (pre.length + i) r ?_
    have bound := lt_of_getElem? placed
    rw [split, append_assoc, getElem?_append_right (Nat.le_add_right ..),
      Nat.add_sub_cancel_left, getElem?_append_left bound, placed]
  have begins := shifted 0 head rfl
  have mem : head ∈ ops := by simp [split]
  refine ⟨head, bank, rfl, ascending.hardware hardware head mem, fun i r placed => ?_, rfl⟩
  obtain ⟨kind, number⟩ := shifted i r placed
  exact ⟨kind.trans begins.1.symm, by omega⟩

/-- A part of a run is consecutive as well. -/
theorem Meets.part (meets : g.Meets ops parity) (split : ops = pre ++ piece ++ post)
    (filled : piece ≠ []) : g.Meets piece .any := by
  rcases meets with numeric | ⟨virt, linked, _⟩
  · exact .inl (numeric.part split filled)
  · have within : piece <:+: ops := ⟨pre, post, split.symm⟩
    refine .inr ⟨?_, linked.infix within, fun _ _ demanded => absurd rfl demanded⟩
    rw [all_eq_true] at virt ⊢
    exact fun r mem => virt r (within.subset mem)

theorem meets_nil (g : ChainGraph) (parity : Parity) : g.Meets [] parity :=
  .inr ⟨rfl, isChain_nil, fun _ starts => by cases starts⟩

section

variable (fits : g.fitOperands ops parity = .ok fit)

include fits

/-- Hardware registers that fit. -/
theorem numeric_of_fit {r : Register} (mem : r ∈ ops) (hardware : r.hardwareBank.isSome = true) :
    Numeric ops parity := by
  unfold fitOperands ChainGraph.fit at fits
  rw [if_pos (any_isNumbered_eq_true.mpr ⟨r, mem, hardware⟩)] at fits
  obtain ⟨first, bank, starts, isHardware, ascending, allowed, _⟩ := fitNumbered_eq_ok.mp fits
  exact ⟨first, bank, starts, isHardware, ascending, allowed⟩

/-- The operands of a run that fits are distinct. -/
theorem nodup_of_fit : ops.Nodup := by
  unfold fitOperands ChainGraph.fit at fits
  split at fits
  · obtain ⟨first, _, _, _, ascending, _⟩ := fitNumbered_eq_ok.mp fits
    rw [nodup_iff_getElem?_ne_getElem?]
    intro early late order bound same
    have placed : ops[late]? = some ops[late] := getElem?_eq_getElem bound
    have number := (ascending late _ placed).2
    have number' := (ascending early _ (same.trans placed)).2
    omega
  · exact (operandConflict_eq_none.mp (fitVirtual_eq_ok.mp fits).1).1

/-- The parity that is committed is the one that was asked for, if one was. -/
theorem parity_of_fit (asked : parity ≠ .any) : fit.parity = parity := by
  unfold fitOperands ChainGraph.fit at fits
  split at fits
  · obtain ⟨_, _, _, _, _, _, _, rfl⟩ := fitNumbered_eq_ok.mp fits
    rfl
  · obtain ⟨_, _, _, _, isBase, _, _, _, _, rfl⟩ := fitVirtual_eq_ok.mp fits
    exact (parity_of_baseParity isBase).1 asked

end

/-- A run that fits and is committed is as it has to be. -/
theorem Sound.meets_of_commit (sound : g.Sound) (fits : g.fitOperands ops parity = .ok fit)
    (ran : (commit ops fit.parity via).Yields g () after) : after.Meets ops parity := by
  rcases (sound.commit_yields ran).2 with ⟨virt, linked, starts⟩ | ⟨hardware, _⟩
  · refine .inr ⟨virt, linked, fun first isFirst asked => ?_⟩
    have same := parity_of_fit fits asked
    rw [← same] at asked ⊢
    exact starts first isFirst asked
  · cases ops with
    | nil => exact meets_nil after parity
    | cons head rest =>
      exact .inl (numeric_of_fit fits mem_cons_self (all_eq_true.mp hardware head mem_cons_self))

/-! ### Room -/

/-- A register may come to be in a bank: in the one of a hardware register, and if it is virtual,
among the temporaries or in a bank that some register is pinned to. -/
def MayEnter (g : ChainGraph) (r : Register) (bank : Bank) : Prop :=
  r.hardwareBank = some bank ∨ r.hardwareBank = none ∧
      (bank = .temp ∨ ∃ one pin, g.pinAt one = some pin ∧ pin.bank = bank)

/-- A bank that the operands may come to be in has room for them. -/
def Accommodates (g : ChainGraph) (ops : List Register) : Prop :=
  ∃ bank, ops.length ≤ g.limit bank ∧ ∀ r ∈ ops, g.MayEnter r bank

theorem Accommodates.refines (room : g.Accommodates ops) (refines : g.Refines after) :
    after.Accommodates ops := by
  obtain ⟨bank, short, enter⟩ := room
  refine ⟨bank, ?_, fun r mem => ?_⟩
  · unfold limit at short ⊢
    rwa [refines.limits]
  · unfold MayEnter at enter ⊢
    simp only [refines.pin]
    exact enter r mem

theorem Accommodates.sublist (room : g.Accommodates ops) (part : piece.Sublist ops) :
    g.Accommodates piece := by
  obtain ⟨bank, short, enter⟩ := room
  exact ⟨bank, part.length_le.trans short, fun r mem =>
    enter r (part.subset mem)⟩

/-- A run that fits has room in its bank. -/
theorem Sound.accommodates_of_fit (sound : g.Sound) (fits : g.fitOperands ops parity = .ok fit) :
    g.Accommodates ops := by
  unfold fitOperands ChainGraph.fit at fits
  split at fits
  · obtain ⟨first, bank, _, hardware, ascending, _, room, _⟩ := fitNumbered_eq_ok.mp fits
    exact ⟨bank, room, fun r isMem => .inl (ascending.hardware hardware r isMem)⟩
  · next unnumbered =>
    obtain ⟨_, _, _, extent, _, _, neighbours, extents, room, _⟩ := fitVirtual_eq_ok.mp fits
    obtain ⟨span, bank⟩ := sound.span_of_spans (sound.ordered_of_neighbours neighbours)
      (spans_of_foldlM extents)
    rw [span, bank] at room
    have long : ops.length ≤ g.span ops := by
      unfold ChainGraph.span
      omega
    refine ⟨(g.bankFor ops).getD .temp, long.trans room, fun r isMem =>
      .inr ⟨unnumbered_of_not_any unnumbered r isMem, ?_⟩⟩
    cases missing : g.bankFor ops with
    | none => exact .inl rfl
    | some bank =>
      obtain ⟨mem, _, pinned⟩ := exists_of_findSome?_eq_some missing
      obtain ⟨pre, post, run⟩ := sound.exists_registerRun true mem
      rw [(sound.standing run).2.2] at pinned
      obtain ⟨one, _, pin, isPin, rfl⟩ := exists_of_bankAmong pinned
      exact .inr ⟨one, pin, isPin, rfl⟩

/-- Operands are as a run of this parity has to be, and there is room for them. -/
structure Answers (g : ChainGraph) (ops : List Register) (parity : Parity) : Prop where
  meets : g.Meets ops parity
  room : g.Accommodates ops

theorem Answers.refines (answers : g.Answers ops parity) (refines : g.Refines after) :
    after.Answers ops parity :=
  ⟨answers.meets.refines refines, answers.room.refines refines⟩

theorem Answers.part (answers : g.Answers ops parity) (split : ops = pre ++ piece ++ post)
    (filled : piece ≠ []) : g.Answers piece .any :=
  ⟨answers.meets.part split filled,
    answers.room.sublist (List.IsInfix.sublist ⟨pre, post, split.symm⟩)⟩

theorem Sound.answers_of_commit (sound : g.Sound) (fits : g.fitOperands ops parity = .ok fit)
    (ran : (commit ops fit.parity via).Yields g () after) : after.Answers ops parity :=
  ⟨sound.meets_of_commit fits ran,
    (sound.accommodates_of_fit fits).refines ((sound.commit_yields ran).1.refines sound)⟩

end ChainGraph

end RegisterChains

/-
This file is about chains that were given their numbers. A chain whose base was accepted has
consecutive numbers from there on. So once every chain has a base, registers that have to be
consecutive are numbered consecutively, parities are met, and pinned registers have the numbers
that they are pinned to.
-/

import RegisterChains.Proofs.Chain.Meeting
import RegisterChains.Proofs.Numbering

namespace RegisterChains

open List Step

variable {ms : List NodeId}

namespace ChainGraph

variable {g : ChainGraph} {head id next : NodeId} {i : Nat} {n : Node}

/-! ### Places in chains -/

/-- A run of links is listed from its first node on, which is a head. -/
theorem Shaped.chain_of_run (shaped : g.Shaped) (found : g.node? id = some n)
    (run : IsRun (g.Leads false) ms) (member : id ∈ ms) : ∃ head ∈ g.heads, g.chain head = ms := by
  cases ms with
  | nil => cases member
  | cons head rest =>
    obtain ⟨node, isFirst⟩ := shaped.live_of_mem run found member mem_cons_self
    have whole : IsRun (g.Leads false) ([] ++ head :: rest) := run
    exact ⟨head, shaped.mem_heads_of_run run isFirst, shaped.chain_eq isFirst whole⟩

/-- Every node has a place in the chain of some head. -/
theorem Shaped.exists_place (shaped : g.Shaped) (found : g.node? id = some n) :
    ∃ head ∈ g.heads, ∃ i : Nat, (g.chain head)[i]? = some id := by
  obtain ⟨ms, member, run⟩ := shaped.complete id n found
  obtain ⟨head, isHead, isChain⟩ := shaped.chain_of_run found run member
  obtain ⟨i, placed⟩ := getElem?_of_mem member
  exact ⟨head, isHead, i, isChain ▸ placed⟩

section

variable (shaped : g.Shaped) (isHead : head ∈ g.heads)

include shaped isHead

theorem Shaped.nodup_chain : (g.chain head).Nodup := by
  obtain ⟨rest, isChain, run⟩ := shaped.run_of_head isHead
  rw [isChain]
  exact run.nodup (shaped.leads_leftUnique false)

/-- The node that another one leads to has the next place. -/
theorem Shaped.place_next (placed : (g.chain head)[i]? = some id) (leads : g.Leads false id next) :
    (g.chain head)[i + 1]? = some next := by
  have distinct := shaped.nodup_chain isHead
  obtain ⟨rest, isChain, run⟩ := shaped.run_of_head isHead
  rw [← isChain] at run
  obtain ⟨pre, post, split⟩ :=
    run.split_of_next (leads_rightUnique false) (mem_of_getElem? placed) leads
  have here : (g.chain head)[pre.length]? = some id := by
    rw [split, getElem?_append_right (Nat.le_refl _), Nat.sub_self, getElem?_cons_zero]
  have same : i = pre.length :=
    (getElem?_inj (lt_of_getElem? placed) distinct).mp (placed.trans here.symm)
  rw [same, split, getElem?_append_right (Nat.le_add_right _ 1), Nat.add_sub_cancel_left]
  rfl

/-- Chains of different heads have no node in common. -/
theorem Shaped.head_unique {other : NodeId} (isOther : other ∈ g.heads)
    (member : id ∈ g.chain head) (mem' : id ∈ g.chain other) : head = other := by
  obtain ⟨rest, isChain, run⟩ := shaped.run_of_head isHead
  obtain ⟨rest', isChain', run'⟩ := shaped.run_of_head isOther
  rw [isChain] at member
  rw [isChain'] at mem'
  have same := run.eq_of_mem (shaped.leads_leftUnique false) (leads_rightUnique false) run' member
    mem'
  exact (List.cons.inj same).1

end

end ChainGraph

namespace Numbering

open ChainGraph

variable {numbering after : Numbering} {head id : NodeId} {base : UInt32}
  {assigned : Assoc NodeId UInt32} {r : Register} {start i : Nat}

/-! ### Recording numbers -/

theorem get?_insertEach_of_notMem (base : UInt32) (absent : id ∉ ms) : ((ms.zipIdx start).foldl
      (fun assigned (id, i) => assigned.insert id (base + i.toUInt32)) assigned).get? id =
        assigned.get? id := by
  induction ms generalizing start assigned with
  | nil => rfl
  | cons member rest ih =>
    rw [mem_cons, not_or] at absent
    rw [zipIdx_cons, foldl_cons, ih absent.2, Assoc.get?_insert_of_ne _ _ absent.1]

theorem get?_insertEach (base : UInt32) (distinct : ms.Nodup) (placed : ms[i]? = some id) :
    ((ms.zipIdx start).foldl
      (fun assigned (id, i) => assigned.insert id (base + i.toUInt32)) assigned).get? id =
        some (base + (start + i).toUInt32) := by
  induction ms generalizing start i assigned with
  | nil => cases placed
  | cons member rest ih =>
    rw [nodup_cons] at distinct
    rw [zipIdx_cons, foldl_cons]
    cases i with
    | zero =>
      cases placed
      rw [get?_insertEach_of_notMem base distinct.1, Assoc.get?_insert_self]
      rfl
    | succ i =>
      rw [ih distinct.2 placed]
      congr 3
      omega

/-- The members of a chain have the numbers from a base on, which was accepted. -/
def Holds (numbering : Numbering) (head : NodeId) (base : UInt32) : Prop :=
  numbering.check head base = .ok () ∧ ∀ (i : Nat) id, (numbering.graph.chain head)[i]? = some id →
      numbering.assigned.get? id = some (base + i.toUInt32)

theorem assign_yields (ran : (assign head base).Yields numbering () after) :
    (numbering.verify = true → numbering.check head base = .ok ()) ∧
      after = numbering.record head base := by
  unfold assign at ran
  rw [yields_get_bind] at ran
  by_cases verified : numbering.verify = true
  · rw [if_pos verified] at ran
    cases checked : numbering.check head base with
    | error cause =>
      rw [checked] at ran
      obtain ⟨_, _, no, _⟩ := yields_bind.mp (yields_report_bind.mp ran)
      exact absurd no not_yields_breach
    | ok =>
      rw [checked] at ran
      exact ⟨fun _ => rfl, yields_set.mp ran⟩
  · rw [if_neg verified] at ran
    exact ⟨fun isVerified => absurd isVerified verified, yields_set.mp ran⟩

theorem holds_record (shaped : numbering.graph.Shaped) (isHead : head ∈ numbering.graph.heads)
    (checked : numbering.check head base = .ok ()) :
    (numbering.record head base).Holds head base := by
  refine ⟨checked, fun i id placed => ?_⟩
  refine (get?_insertEach base (shaped.nodup_chain isHead) placed).trans ?_
  rw [Nat.zero_add]

theorem Holds.record {other : NodeId} {base' : UInt32} (holds : numbering.Holds other base')
    (shaped : numbering.graph.Shaped) (isHead : head ∈ numbering.graph.heads)
    (isOther : other ∈ numbering.graph.heads) (ne : other ≠ head) (base : UInt32) :
    (numbering.record head base).Holds other base' := by
  refine ⟨holds.1, fun i id placed => ?_⟩
  have absent : id ∉ numbering.graph.chain head := fun member =>
    ne (shaped.head_unique isOther isHead (mem_of_getElem? placed) member)
  exact (get?_insertEach_of_notMem base absent).trans (holds.2 i id placed)

/-- Numbers chains one after the other. -/
def assignAll (assignments : List (NodeId × UInt32)) : Step Numbering Unit :=
  assignments.forM fun assignment => assign assignment.1 assignment.2

/-- Chains that were numbered hold their numbers. -/
theorem assignAll_yields {assignments : List (NodeId × UInt32)} (shaped : numbering.graph.Shaped)
    (verified : numbering.verify = true)
    (heads : ∀ assignment ∈ assignments, assignment.1 ∈ numbering.graph.heads)
    (ran : (assignAll assignments).Yields numbering () after) :
    after.graph = numbering.graph ∧ ∀ head ∈ numbering.graph.heads,
      (∃ base, (head, base) ∈ assignments) ∨ (∃ base, numbering.Holds head base) →
        ∃ base, after.Holds head base := by
  induction assignments generalizing numbering with
  | nil =>
    obtain ⟨_, rfl⟩ := yields_pure.mp ran
    refine ⟨rfl, fun head _ either => ?_⟩
    rcases either with ⟨_, no⟩ | holds
    · cases no
    · exact holds
  | cons assignment rest ih =>
    obtain ⟨first, number⟩ := assignment
    obtain ⟨_, _, assigns, later⟩ := yields_bind.mp ran
    obtain ⟨checked, rfl⟩ := assign_yields assigns
    have isFirst := heads (first, number) mem_cons_self
    have shaped' : (numbering.record first number).graph.Shaped := shaped
    obtain ⟨g, holding⟩ := ih shaped' verified
      (fun assignment member => heads assignment (mem_cons_of_mem _ member)) later
    refine ⟨g, fun head isHead either => holding head isHead ?_⟩
    by_cases same : head = first
    · refine .inr ⟨number, ?_⟩
      rw [same]
      exact holds_record shaped isFirst (checked verified)
    · rcases either with ⟨base, member⟩ | ⟨base, holds⟩
      · rcases mem_cons.mp member with equal | member
        · exact absurd (congrArg Prod.fst equal) same
        · exact .inl ⟨base, member⟩
      · exact .inr ⟨base, holds.record shaped isFirst isHead same number⟩

/-! ### Reading numbers -/

/-- The numbers of some registers ascend by one from a number of the given parity on. -/
def Ascends (numbering : Numbering) (regs : List Register) (parity : Parity) : Prop :=
  ∃ base : UInt32, parity.allows base = true ∧ ∀ i r, regs[i]? = some r →
      ∃ number, numbering.numberOf r = some number ∧ number.toNat = base.toNat + i

/-- The register at a place of a numbered chain. -/
theorem Holds.numberOf (holds : numbering.Holds head base) (sound : numbering.graph.Sound)
    (named : numbering.graph.find r = some id)
    (placed : (numbering.graph.chain head)[i]? = some id) :
    numbering.numberOf r = some (base.toNat + i).toUInt32 ∧ base.toNat + i < UInt32.size ∧
      (numbering.graph.parityOf r).allows (base.toNat + i).toUInt32 = true ∧
      ∀ pin number, numbering.graph.pinAt r = some pin → pin.physical = some number →
        number = (base.toNat + i).toUInt32 := by
  obtain ⟨n, found, _⟩ := (sound.registered r id).mp named
  obtain ⟨_, _, passes⟩ := check_eq_ok.mp holds.1
  obtain ⟨small, allowed, pinned⟩ := checkMember_eq_ok.mp (passes i id n placed found)
  refine ⟨?_, small, ?_, fun pin number isPin physical => ?_⟩
  · unfold Numbering.numberOf
    rw [named, Option.bind_some, holds.2 i id placed, Nat.toUInt32_eq, Nat.toUInt32_eq,
      UInt32.ofNat_add, UInt32.ofNat_toNat]
  · rw [parityOf_of_find named found]
    exact allowed
  · rw [pinAt_of_find named found] at isPin
    exact pinned number (by rw [isPin, Option.bind_some, physical])

section

variable (holding : ∀ head ∈ numbering.graph.heads, ∃ base, numbering.Holds head base)

include holding

section

variable (sound : numbering.graph.Sound)

include sound

/-- Every register with a node has a number that its parity allows, which is the one that it is
pinned to if there is one. -/
theorem number_of_find (named : numbering.graph.find r = some id) :
    ∃ number, numbering.numberOf r = some number ∧
      (numbering.graph.parityOf r).allows number = true ∧
      ∀ pin physical, numbering.graph.pinAt r = some pin → pin.physical = some physical →
        physical = number := by
  obtain ⟨n, found, _⟩ := (sound.registered r id).mp named
  obtain ⟨head, isHead, i, placed⟩ := sound.exists_place found
  obtain ⟨base, holds⟩ := holding head isHead
  obtain ⟨isNumber, _, allowed, pinned⟩ := holds.numberOf sound named placed
  exact ⟨_, isNumber, allowed, pinned⟩

/-- Registers that have to be consecutive are numbered consecutively. -/
theorem ascends_of_follows {first : Register} {rest : List Register}
    (named : numbering.graph.find first = some id)
    (linked : (first :: rest).IsChain (numbering.graph.Follows true)) :
    ∃ base : UInt32, (numbering.graph.parityOf first).allows base = true ∧
      ∀ i r, (first :: rest)[i]? = some r →
        ∃ number, numbering.numberOf r = some number ∧ number.toNat = base.toNat + i := by
  obtain ⟨n, found, _⟩ := (sound.registered first id).mp named
  obtain ⟨head, isHead, start, atPlace⟩ := sound.exists_place found
  obtain ⟨base, holds⟩ := holding head isHead
  obtain ⟨_, small, allowed, _⟩ := holds.numberOf sound named atPlace
  refine ⟨_, allowed, fun i r listed => ?_⟩
  -- The places of the registers follow each other, as their links do.
  have placed : ∀ i r, (first :: rest)[i]? = some r → ∃ id, numbering.graph.find r = some id ∧
        (numbering.graph.chain head)[start + i]? = some id := by
    intro i
    induction i with
    | zero =>
      intro r listed
      cases listed
      exact ⟨id, named, atPlace⟩
    | succ i ih =>
      intro r listed
      have bound := lt_of_getElem? listed
      have pre := getElem?_eq_getElem (Nat.lt_of_succ_lt bound)
      obtain ⟨prev, isPrev, placed'⟩ := ih _ pre
      obtain ⟨one, other, isOne, isOther, leads⟩ := linked.getElem i bound
      cases isPrev.symm.trans isOne
      rw [List.getElem?_eq_some_iff.mp listed |>.2] at isOther
      exact ⟨other, isOther, sound.place_next isHead placed' leads.weaken⟩
  obtain ⟨member, isMember, placed'⟩ := placed i r listed
  obtain ⟨isNumber', small', _, _⟩ := holds.numberOf sound isMember placed'
  refine ⟨_, isNumber', ?_⟩
  rw [toNat_toUInt32 small, toNat_toUInt32 small', Nat.add_assoc]

/-- Operands that meet what a run asks for are hardware registers, or are numbered as the run
needs. -/
theorem ascends_of_runHolds {ops : List Register} {parity : Parity}
    (holds : numbering.graph.RunHolds ops parity) (asked : 2 ≤ ops.length ∨ parity ≠ .any) :
    numbering.Ascends ops parity := by
  obtain ⟨linked, starts⟩ := holds
  cases ops with
  | nil =>
    refine ⟨if parity = .odd then 1 else 0, ?_, fun i r no => by cases no⟩
    cases parity <;> rfl
  | cons first rest =>
    obtain ⟨id, named⟩ : ∃ id, numbering.graph.find first = some id := by
      rcases asked with long | demanded
      · cases rest with
        | nil => exact absurd long (by simp)
        | cons next others =>
          obtain ⟨id, _, named, _⟩ := linked.rel
          exact ⟨id, named⟩
      · by_contra unknown
        simp only [not_exists, ← Option.eq_none_iff_forall_ne_some] at unknown
        have fixed := starts first rfl demanded
        rw [parityOf_of_none unknown] at fixed
        exact demanded fixed.symm
    obtain ⟨base, allowed, numbered⟩ := ascends_of_follows holding sound named linked
    refine ⟨base, ?_, numbered⟩
    by_cases free : parity = .any
    · rw [free]
      rfl
    · rw [← starts first rfl free]
      exact allowed

end

end

end Numbering

end RegisterChains

/-
This file is about the numbers of finished chains. The members of a chain take consecutive
numbers from its base on, so a chain can be numbered exactly if the numbers that its members are
pinned to are as far apart as the members are, and leave room for the members before and behind.
Parities are no obstacle: they alternate, and agree with the numbers.
-/

import RegisterChains.Chain.Numbering
import RegisterChains.Proofs.Seeding.Pinning

namespace RegisterChains

open List Parity

variable {number : UInt32}

/-! ### Parities of numbers -/

namespace Parity

theorem allows_iff {parity : Parity} :
    parity.allows number = true ↔ parity = .any ∨ parity = .ofNumber number := by
  have cases' : number % 2 = 0 ∨ number % 2 = 1 := by
    have small : (number % 2).toNat < 2 := by
      rw [UInt32.toNat_mod]
      exact Nat.mod_lt _ (by decide)
    rcases Nat.lt_or_ge 0 (number % 2).toNat with positive | zero
    · right
      refine UInt32.toNat_inj.mp ?_
      simp only [UInt32.toNat_one]
      omega
    · left
      refine UInt32.toNat_inj.mp ?_
      simp only [UInt32.toNat_zero]
      omega
  unfold allows ofNumber
  rcases cases' with even | odd
  · cases parity <;> simp [even]
  · cases parity <;> simp [odd]

theorem ofNumber_eq (number : UInt32) : ofNumber number = even.atOffset number.toNat := by
  unfold ofNumber atOffset
  have same : number % 2 = 0 ↔ number.toNat % 2 = 0 := by
    rw [← UInt32.toNat_inj, UInt32.toNat_mod]
    rfl
  simp only [same]
  rfl

end Parity

namespace ChainGraph

variable {g : ChainGraph} {head : NodeId}

/-- The chain at a head, in order. -/
theorem Shaped.run_of_head (shaped : g.Shaped) (isHead : head ∈ g.heads) :
    ∃ rest, g.chain head = head :: rest ∧ IsRun (g.Leads false) (head :: rest) := by
  obtain ⟨n, found, isStart⟩ := (shaped.heads head).mp isHead
  obtain ⟨ms, mem, run⟩ := shaped.complete head n found
  obtain ⟨pre, post, rfl⟩ := append_of_mem mem
  obtain rfl : pre = [] := by
    rcases eq_nil_or_concat pre with rfl | ⟨front, prev, rfl⟩
    · rfl
    · have linked : g.Leads false prev head := by
        have chained := run.linked
        rw [concat_eq_append, append_assoc, singleton_append] at chained
        exact (isChain_append.mp chained).2.1.rel
      obtain ⟨_, successor, isSuccessor, isPrev⟩ := shaped.live_of_leads linked
      cases found.symm.trans isSuccessor
      rw [isStart] at isPrev
      cases isPrev
  exact ⟨post, shaped.chain_eq found run, run⟩

end ChainGraph

namespace Numbering

variable {numbering : Numbering} {head : NodeId} {base : UInt32}

/-- A number that fits a member. -/
theorem checkMember_eq_ok {n : Node} {i : Nat} :
    checkMember head base n i = .ok () ↔ base.toNat + i < UInt32.size ∧
      n.parity.allows (base.toNat + i).toUInt32 = true ∧
      ∀ physical, n.pin.bind (·.physical) = some physical →
        physical = (base.toNat + i).toUInt32 := by
  unfold checkMember
  rw [except_unless_throw_eq_ok, Nat.not_le]
  simp only
  rw [except_unless_throw_eq_ok]
  refine and_congr_right fun _ => and_congr (by simp) ?_
  cases n.pin.bind (·.physical) with
  | none => simp [pure, Except.pure]
  | some physical =>
    generalize (base.toNat + i).toUInt32 = number
    simp only [Option.some_inj, forall_eq']
    by_cases same : physical = number
    · simp [same, pure, Except.pure]
    · simp [same, throw, throwThe, MonadExceptOf.throw]

/-- A base that fits a chain. -/
theorem check_eq_ok : numbering.check head base = .ok () ↔
      ((numbering.graph.node? head).bind (·.prev)) = none ∧
      (numbering.graph.chain head).length ≤ numbering.graph.limit (numbering.graph.bankOf head) ∧
      ∀ i id n, (numbering.graph.chain head)[i]? = some id →
        numbering.graph.node? id = some n → checkMember head base n i = .ok () := by
  unfold check
  simp only
  rw [except_unless_throw_eq_ok, except_unless_throw_eq_ok, Nat.not_lt]
  refine and_congr (by simp) (and_congr_right fun _ => ?_)
  unfold checkMembers
  rw [except_forM_eq_ok]
  constructor
  · intro passes i id n placed found
    have mem : (id, i) ∈ (numbering.graph.chain head).zipIdx :=
      mk_mem_zipIdx_iff_getElem?.mpr placed
    have passed := passes (id, i) mem
    simpa only [found] using passed
  · rintro passes ⟨id, i⟩ mem
    have placed := mk_mem_zipIdx_iff_getElem?.mp mem
    cases found : numbering.graph.node? id with
    | none => simp only [found]
    | some n =>
      simp only [found]
      exact passes i id n placed found

end Numbering

namespace ChainGraph

variable {g : ChainGraph} {head id : NodeId} {base : UInt32}

/-! ### Chains that can be numbered -/

/-- The number that a node is pinned to, if it is. -/
def numberAt (g : ChainGraph) (id : NodeId) : Option UInt32 :=
  (g.pinOf id).bind (·.physical)

/-- Whether the first node of a list has to have an odd number. -/
def startsOdd (g : ChainGraph) (ms : List NodeId) : Bool :=
  (ms.head?.bind g.node?).any fun n => n.parity == .odd

/-- The numbers that members of a chain are pinned to are as far apart as the members are, and
all members have room in 32 bits. -/
structure Numberable (g : ChainGraph) (members : List NodeId) : Prop where
  room : ∀ index id number, members[index]? = some id → g.numberAt id = some number →
    index ≤ number.toNat ∧ number.toNat + (members.length - index) ≤ UInt32.size
  apart : ∀ index id number index' id' number', members[index]? = some id →
    g.numberAt id = some number → members[index']? = some id' →
    g.numberAt id' = some number' → number.toNat + index' = number'.toNat + index
  free : (∀ id ∈ members, g.numberAt id = none) →
    members.length + (g.startsOdd members).toNat ≤ UInt32.size

theorem toNat_toUInt32 {number : Nat} (small : number < UInt32.size) :
    number.toUInt32.toNat = number := by
  rw [Nat.toUInt32_eq, UInt32.toNat_ofNat', Nat.mod_eq_of_lt small]

/-- A base that meets every member. -/
def Numbered (g : ChainGraph) (ms : List NodeId) (base : Nat) : Prop :=
  base + ms.length ≤ UInt32.size ∧ (∀ n, ms.head?.bind g.node? = some n →
      n.parity = .any ∨ n.parity = even.atOffset base) ∧
    ∀ i id number, ms[i]? = some id → g.numberAt id = some number → number.toNat = base + i

theorem numberAt_eq {n : Node} (found : g.node? id = some n) :
    g.numberAt id = n.pin.bind (·.physical) := by
  unfold numberAt pinOf
  rw [found, Option.bind_some]

/-- The base of a chain that is checked is one that meets every member. -/
theorem Sound.check_eq_ok_iff {numbering : Numbering} (sound : numbering.graph.Sound)
    (isHead : head ∈ numbering.graph.heads) : numbering.check head base = .ok () ↔
      (numbering.graph.chain head).length ≤ numbering.graph.limit (numbering.graph.bankOf head) ∧
        numbering.graph.Numbered (numbering.graph.chain head) base.toNat := by
  obtain ⟨rest, isChain, run⟩ := sound.run_of_head isHead
  obtain ⟨node, found, isFirst⟩ := (sound.heads head).mp isHead
  have live : ∀ i id, (head :: rest)[i]? = some id →
      ∃ n, numbering.graph.node? id = some n := fun i id placed =>
    sound.live_of_mem run found mem_cons_self (mem_of_getElem? placed)
  rw [Numbering.check_eq_ok, found, Option.bind_some, isFirst, isChain, and_iff_right rfl]
  refine and_congr_right fun _ => ?_
  simp only [Numbering.checkMember_eq_ok]
  constructor
  · intro passes
    have small : ∀ i id, (head :: rest)[i]? = some id → base.toNat + i < UInt32.size := by
      intro i id placed
      obtain ⟨n, isNode⟩ := live i id placed
      exact (passes i id n placed isNode).1
    refine ⟨?_, fun n isNode => ?_, fun i id number placed pinned => ?_⟩
    · have last := small rest.length _ (getElem?_eq_getElem (by simp))
      rw [length_cons]
      omega
    · rw [head?_cons, Option.bind_some] at isNode
      have allowed := (passes 0 head n rfl isNode).2.1
      rw [Nat.add_zero, allows_iff, ofNumber_eq, toNat_toUInt32 base.toNat_lt] at allowed
      exact allowed
    · obtain ⟨n, isNode⟩ := live i id placed
      rw [numberAt_eq isNode] at pinned
      rw [(passes i id n placed isNode).2.2 number pinned, toNat_toUInt32 (small i id placed)]
  · rintro ⟨room, parity, pins⟩ i id n placed isNode
    have lt := lt_of_getElem? placed
    have small : base.toNat + i < UInt32.size := by omega
    refine ⟨small, ?_, fun physical pinned => ?_⟩
    · rw [allows_iff, ofNumber_eq, toNat_toUInt32 small,
        (sound.parity_at run.linked found placed isNode).1]
      rcases parity node (by rw [head?_cons, Option.bind_some, found]) with free | fixed
      · exact .inl (by rw [free]; simp)
      · exact .inr (by rw [fixed, atOffset_atOffset])
    · refine UInt32.toNat_inj.mp ?_
      rw [toNat_toUInt32 small]
      exact pins i id physical placed (by rw [numberAt_eq isNode, pinned])

section Bases

variable {rest : List NodeId} {node : Node}

theorem Numbered.numberable (found : g.node? head = some node)
    (numbered : g.Numbered (head :: rest) base.toNat) : g.Numberable (head :: rest) := by
  obtain ⟨room, parity, pins⟩ := numbered
  have starts : (head :: rest).head?.bind g.node? = some node := by
    rw [head?_cons, Option.bind_some, found]
  refine ⟨fun i id number placed pinned => ?_, ?_, fun _ => ?_⟩
  · have lt := lt_of_getElem? placed
    have number := pins i id number placed pinned
    omega
  · intro i id number i' id' number' placed pinned placed' pinned'
    have one := pins i id number placed pinned
    have agrees := pins i' id' number' placed' pinned'
    omega
  · unfold startsOdd
    rw [starts, Option.any_some]
    by_cases odd : node.parity = .odd
    · have positive : base.toNat ≠ 0 := by
        intro zero
        rcases parity node starts with free | fixed
        · rw [odd] at free
          cases free
        · rw [odd, zero] at fixed
          cases fixed
      rw [odd]
      simp only [BEq.rfl, Bool.toNat_true]
      omega
    · have even : (node.parity == .odd) = false := by simpa using odd
      rw [even, Bool.toNat_false]
      omega

/-- A chain without pins is numbered from zero or one on. -/
theorem Numberable.exists_numbered (found : g.node? head = some node)
    (numberable : g.Numberable (head :: rest))
    (pinned : ∀ id ∈ head :: rest, g.numberAt id = none) :
    ∃ base : UInt32, g.Numbered (head :: rest) base.toNat := by
  have starts : (head :: rest).head?.bind g.node? = some node := by
    rw [head?_cons, Option.bind_some, found]
  have wide := numberable.free pinned
  unfold startsOdd at wide
  rw [starts, Option.any_some] at wide
  have unpinned : ∀ base : Nat, ∀ i id number, (head :: rest)[i]? = some id →
      g.numberAt id = some number → number.toNat = base + i := by
    intro base i id number placed isPinned
    rw [pinned id (mem_of_getElem? placed)] at isPinned
    cases isPinned
  have only : ∀ n, (head :: rest).head?.bind g.node? = some n → n = node := by
    intro n isNode
    exact Option.some_inj.mp (isNode.symm.trans starts)
  cases parity : node.parity with
  | odd =>
    rw [parity] at wide
    refine ⟨1, ?_, fun n isNode => ?_, unpinned _⟩
    · simp only [BEq.rfl, Bool.toNat_true] at wide
      simp only [UInt32.toNat_one]
      omega
    · rw [only n isNode, parity]
      exact .inr rfl
  | even =>
    refine ⟨0, ?_, fun n isNode => ?_, unpinned _⟩
    · simp only [UInt32.toNat_zero]
      omega
    · rw [only n isNode, parity]
      exact .inr rfl
  | any =>
    refine ⟨0, ?_, fun n isNode => ?_, unpinned _⟩
    · simp only [UInt32.toNat_zero]
      omega
    · rw [only n isNode, parity]
      exact .inl rfl

section

variable (sound : g.Sound) (fit : g.NumbersFit)
  (run : IsRun (g.Leads false) (head :: rest)) (found : g.node? head = some node)

include sound fit run found

/-- The parity at the head of a chain is that of the number which a pinned member leaves for
it. -/
theorem Sound.parity_of_number {i : Nat} (placed : (head :: rest)[i]? = some id)
    (isNumber : g.numberAt id = some number) (lo : i ≤ number.toNat) :
    node.parity = even.atOffset (number.toNat - i) := by
  obtain ⟨mem, isMember⟩ := sound.live_of_mem run found mem_cons_self (mem_of_getElem? placed)
  have here := (sound.parity_at run.linked found placed isMember).1
  rw [numberAt_eq isMember] at isNumber
  obtain ⟨pin, isPin, physical⟩ := Option.bind_eq_some_iff.mp isNumber
  have named := sound.find_of_node? isMember
  have fixed := fit mem.register pin number ((pinAt_of_find named isMember).trans isPin) physical
  rw [parityOf_of_find named isMember, here, ofNumber_eq] at fixed
  -- Going forth and back along the chain changes the parity an even number of times.
  have back := congrArg (·.atOffset i) fixed
  simp only [atOffset_atOffset] at back
  rw [atOffset_congr node.parity (by omega : (i + i) % 2 = 0 % 2), atOffset_zero] at back
  rw [back]
  exact atOffset_congr _ (by omega)

/-- A chain with a pin is numbered from the base that the pin leaves for its head. -/
theorem Sound.exists_numbered_of_pin (numberable : g.Numberable (head :: rest))
    (mem : id ∈ head :: rest) (isNumber : g.numberAt id = some number) :
    ∃ base : UInt32, g.Numbered (head :: rest) base.toNat := by
  obtain ⟨room, apart, _⟩ := numberable
  obtain ⟨i, placed⟩ := getElem?_of_mem mem
  obtain ⟨lo, hi⟩ := room i id number placed isNumber
  have bound := lt_of_getElem? placed
  have base : (number.toNat - i).toUInt32.toNat = number.toNat - i :=
    toNat_toUInt32 (by have := number.toNat_lt; simp only [UInt32.size] at *; omega)
  refine ⟨(number.toNat - i).toUInt32, ?_, fun n isNode => .inr ?_,
    fun i' id' number' placed' isNumber' => ?_⟩
  · rw [base]
    omega
  · rw [head?_cons, Option.bind_some, found] at isNode
    rw [← Option.some_inj.mp isNode, base]
    exact sound.parity_of_number fit run found placed isNumber lo
  · have same := apart i id number i' id' number' placed isNumber placed' isNumber'
    rw [base]
    omega

end

end Bases

/-- Some base meets every member exactly if the numbers are apart as the members are and leave
them room. -/
theorem Sound.exists_numbered_iff (sound : g.Sound) (fit : g.NumbersFit) (isHead : head ∈ g.heads) :
    (∃ base : UInt32, g.Numbered (g.chain head) base.toNat) ↔ g.Numberable (g.chain head) := by
  obtain ⟨rest, isChain, run⟩ := sound.run_of_head isHead
  obtain ⟨node, found, _⟩ := (sound.heads head).mp isHead
  rw [isChain]
  refine ⟨fun ⟨_, numbered⟩ => numbered.numberable found, fun numberable => ?_⟩
  by_cases pinned : ∀ id ∈ head :: rest, g.numberAt id = none
  · exact numberable.exists_numbered found pinned
  · simp only [not_forall] at pinned
    obtain ⟨id, mem, isPinned⟩ := pinned
    obtain ⟨number, isNumber⟩ := Option.ne_none_iff_exists'.mp isPinned
    exact sound.exists_numbered_of_pin fit run found numberable mem isNumber

end ChainGraph

end RegisterChains

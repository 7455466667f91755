/-
This file says what it means that a candidate of virtual registers fits. The registers are
distinct, each of them has the parity of its place or none, neighbours in the candidate do
not contradict the mandatory links, and registers on one run are as far apart in the
candidate as on the run. Whether there is room is the only question that a longer candidate
can answer differently from a shorter one: everything else holds of every beginning of a
candidate that fits.
-/

import RegisterChains.Chain.Fit
import RegisterChains.Proofs.Chain.Bounds

namespace RegisterChains

open Parity Slot

namespace ChainGraph

open List

variable {g : ChainGraph} {regs ops : List Register} {mem : Member}
  {existing : List (Option NodeId)} {r first last : Register} {parity : Parity} {ms : List Member}
  {slots : List Slot} {fit : Fit} {i : Nat} {ε α β : Type} {extent' : Extent}
  {result start : α} {id : NodeId}

/-! ### Folds that may stop -/

theorem foldlM_cons_ok {step : α → β → Except ε α} {item : β} {rest : List β} :
    (item :: rest).foldlM step start = .ok result ↔
      ∃ mid, step start item = .ok mid ∧ rest.foldlM step mid = .ok result := by
  rw [foldlM_cons, except_bind_eq_ok]

/-! ### Members of a candidate -/

/-- The members of a candidate that have a node. -/
abbrev members (graph : ChainGraph) (slots : List Slot) : List Member :=
  graph.membersOf (graph.existingNodes slots)

theorem mem_membersOf : mem ∈ g.membersOf existing ↔ existing[mem.index]? = some (some mem.id) ∧
        g.node? mem.id = some mem.node := by
  unfold membersOf
  rw [mem_filterMap]
  constructor
  · rintro ⟨⟨owner, i⟩, listed, built⟩
    obtain ⟨id, rfl, mapped⟩ := Option.bind_eq_some_iff.mp built
    obtain ⟨n, read, rfl⟩ := Option.map_eq_some_iff.mp mapped
    exact ⟨mk_mem_zipIdx_iff_getElem?.mp listed, read⟩
  · rintro ⟨placed, read⟩
    refine ⟨(some mem.id, mem.index), mk_mem_zipIdx_iff_getElem?.mpr placed, ?_⟩
    simp only [Option.bind_some, read, Option.map_some]

theorem getElem?_existingNodes (ops : List Register) (i : Nat) :
    (g.existingNodes (ops.map .register))[i]? = ops[i]?.map g.find := by
  unfold existingNodes
  rw [map_map, getElem?_map]
  rfl

/-- The members of a candidate are its registers that have a node. -/
theorem Shaped.mem_members (shaped : g.Shaped) (placed : ops[i]? = some r)
    (known : g.find r = some id) :
    ∃ n, g.node? id = some n ∧ g.parityOf r = n.parity ∧ g.pinAt r = n.pin ∧ (⟨i, id, n⟩ : Member) ∈
        g.members (ops.map .register) := by
  obtain ⟨n, found, _⟩ := shaped.live_of_find known
  refine ⟨n, found, parityOf_of_find known found, pinAt_of_find known found, ?_⟩
  refine mem_membersOf.mpr ⟨?_, found⟩
  rw [getElem?_existingNodes, placed, Option.map_some, known]

theorem register_of_mem_members (isMem : mem ∈ g.members (ops.map .register)) :
    ∃ r, ops[mem.index]? = some r ∧ g.find r = some mem.id ∧ g.node? mem.id = some mem.node := by
  obtain ⟨placed, found⟩ := mem_membersOf.mp isMem
  rw [getElem?_existingNodes] at placed
  obtain ⟨r, listed, known⟩ := Option.map_eq_some_iff.mp placed
  exact ⟨r, listed, known, found⟩

/-! ### The checks of a candidate -/

theorem fitVirtual_eq_ok : g.fitVirtual slots parity = .ok fit ↔
      operandConflict slots = none ∧ ∃ base number extent,
        baseParity (g.members slots) parity = .ok base ∧
        g.baseNumber (g.existingNodes slots) (g.members slots) = .ok number ∧
        g.neighbourConflict slots (g.existingNodes slots) (g.members slots) = none ∧
        (g.members slots).foldlM g.extend ⟨none, .empty, 0, slots.length⟩ = .ok extent ∧
        (extent.high - extent.low).toNat ≤ g.limit (extent.bank.getD .temp) ∧
        fit = ⟨g.existingNodes slots, base, extent.bank.getD .temp⟩ := by
  unfold fitVirtual
  cases operandConflict slots with
  | some conflict => simp [throw, throwThe, MonadExceptOf.throw, bind, Except.bind]
  | none =>
    simp only [except_bind_eq_ok, true_and]
    cases g.neighbourConflict slots (g.existingNodes slots) (g.members slots) with
    | some conflict => simp [throw, throwThe, MonadExceptOf.throw, bind, Except.bind]
    | none =>
      simp only [except_bind_eq_ok, true_and]
      constructor
      · rintro ⟨base, parity, number, numbered, extent, extended, rest⟩
        split at rest
        · cases rest
        · next fits =>
          exact ⟨base, number, extent, parity, numbered, extended, Nat.le_of_not_lt fits,
            (except_pure_eq_ok.mp rest).symm⟩
      · rintro ⟨base, number, extent, parity, numbered, extended, fits, rfl⟩
        refine ⟨base, parity, number, numbered, extent, extended, ?_⟩
        rw [if_neg (Nat.not_lt.mpr fits)]
        rfl

/-- In a candidate without a conflict no register is an immediate or repeats an earlier one. -/
theorem operandConflict_slots_eq_none : operandConflict slots = none ↔
      ∀ i op, slots[i]? = some (.register op) →
        op.isImmediate = false ∧ .register op ∉ slots.take i := by
  unfold operandConflict
  rw [findSome?_eq_none_iff]
  constructor
  · intro clear i op placed
    have free := clear (.register op, i) (mk_mem_zipIdx_iff_getElem?.mpr placed)
    simp only at free
    split at free
    · cases free
    · next notImmediate =>
      split at free
      · cases free
      · next notRepeated =>
        exact ⟨Bool.eq_false_iff.mpr notImmediate,
          fun mem => notRepeated (contains_iff_mem.mpr mem)⟩
  · rintro each ⟨slot, i⟩ mem
    have placed := mk_mem_zipIdx_iff_getElem?.mp mem
    cases slot with
    | fresh => rfl
    | undecided => rfl
    | register op =>
      obtain ⟨notImmediate, notRepeated⟩ := each i op placed
      simp only
      rw [if_neg (by rw [notImmediate]; simp),
        if_neg fun repeated => notRepeated (contains_iff_mem.mp repeated)]

/-- Operands without a conflict are distinct, and none is an immediate. -/
theorem operandConflict_eq_none : operandConflict (ops.map .register) = none ↔
      ops.Nodup ∧ ∀ r ∈ ops, r.isImmediate = false := by
  have placed : ∀ {i : Nat} {r}, (ops.map register)[i]? =
      some (register r) ↔ ops[i]? = some r := by
    intro i r
    rw [getElem?_map, Option.map_eq_some_iff]
    simp
  have repeated : ∀ {i : Nat} {r}, register r ∈ (ops.map register).take i ↔ r ∈ ops.take i := by
    intro i r
    rw [← map_take, mem_map]
    simp
  rw [operandConflict_slots_eq_none]
  simp only [placed, repeated]
  constructor
  · intro each
    refine ⟨?_, fun r mem => ?_⟩
    · rw [nodup_iff_getElem?_ne_getElem?]
      intro early late order bound same
      have placed : ops[late]? = some ops[late] := getElem?_eq_getElem bound
      refine (each late _ placed).2 ?_
      rw [mem_take_iff_getElem]
      refine ⟨early, by omega, ?_⟩
      rw [placed, getElem?_eq_getElem (by omega)] at same
      exact Option.some_inj.mp same
    · obtain ⟨i, placed⟩ := getElem?_of_mem mem
      exact (each i r placed).1
  · rintro ⟨distinct, notImmediate⟩ i r placed
    have bound := lt_of_getElem? placed
    refine ⟨notImmediate r (mem_of_getElem? placed), ?_⟩
    rw [mem_take_iff_getElem]
    rintro ⟨early, order, same⟩
    have lt : early < ops.length := by omega
    refine (nodup_iff_getElem?_ne_getElem?.mp distinct) early i (by omega) bound ?_
    rw [placed, getElem?_eq_getElem lt, same]

theorem baseParity_cons_eq_ok {rest : List Member} {requested base : Parity} :
    baseParity (mem :: rest) requested = .ok base ↔
      if mem.node.parity = .any then baseParity rest requested = .ok base
      else (requested = .any ∨ requested = mem.node.parity.atOffset mem.index) ∧
        baseParity rest (mem.node.parity.atOffset mem.index) = .ok base := by
  unfold baseParity
  rw [foldlM_cons]
  by_cases free : mem.node.parity = .any
  · rw [if_pos free, if_pos (isAny_iff.mpr free)]
    rfl
  · rw [if_neg free, if_neg (isAny_iff.not.mpr free)]
    by_cases unset : requested = .any
    · rw [if_pos (isAny_iff.mpr unset)]
      exact (and_iff_right (.inl unset)).symm
    · rw [if_neg (isAny_iff.not.mpr unset)]
      split
      · next apart =>
        exact iff_of_false (by intro no; cases no) fun both => apart (both.1.resolve_left unset)
      · next same =>
        rw [not_not.mp same]
        exact (and_iff_right (.inr rfl)).symm

theorem atOffset_twice (parity : Parity) (i : Nat) : (parity.atOffset i).atOffset i = parity := by
  rw [atOffset_atOffset]
  exact (atOffset_congr _ (by omega)).trans (atOffset_zero _)

/-- Members with a parity agree with what is found for the first place. -/
theorem parity_of_baseParity {requested base : Parity}
    (found : baseParity ms requested = .ok base) : (requested ≠ .any → base = requested) ∧
      ∀ mem ∈ ms, mem.node.parity ≠ .any → mem.node.parity = base.atOffset mem.index := by
  induction ms generalizing requested with
  | nil =>
    cases found
    exact ⟨fun _ => rfl, forall_mem_nil _⟩
  | cons mem rest ih =>
    rw [baseParity_cons_eq_ok] at found
    split at found
    · next free =>
      obtain ⟨asked, each⟩ := ih found
      exact ⟨asked, forall_mem_cons.mpr ⟨fun fixed => absurd free fixed, each⟩⟩
    · next fixed =>
      obtain ⟨agrees, found⟩ := found
      obtain ⟨asked, each⟩ := ih found
      have same := asked (atOffset_eq_any.not.mpr fixed)
      refine ⟨fun wanted => same.trans (agrees.resolve_left wanted).symm,
        forall_mem_cons.mpr ⟨fun _ => ?_, each⟩⟩
      rw [same, atOffset_twice]

/-- Parities that agree with a base give a parity for the first place, which is the base if it is
any at all. -/
theorem baseParity_of_agreeing {requested base : Parity}
    (asked : requested = .any ∨ requested = base)
    (agree : ∀ mem ∈ ms, mem.node.parity ≠ .any → mem.node.parity = base.atOffset mem.index) :
    ∃ found, baseParity ms requested = .ok found ∧ (found = .any ∨ found = base) := by
  induction ms generalizing requested with
  | nil => exact ⟨requested, rfl, asked⟩
  | cons mem rest ih =>
    obtain ⟨here, agree⟩ := forall_mem_cons.mp agree
    simp only [baseParity_cons_eq_ok]
    split
    · exact ih asked agree
    · next fixed =>
      rw [here fixed, atOffset_twice]
      exact (ih (.inr rfl) agree).imp fun _ both => ⟨⟨asked, both.1⟩, both.2⟩

/-- The number of a pinned member is as far from that of the first place as the member is. -/
def Member.Numbered (start : Nat) (mem : Member) : Prop :=
  ∀ physical, mem.node.pin.bind (·.physical) = some physical → physical.toNat = start + mem.index

/-- A pinned member can follow the pinned one before it. -/
def Member.Succeeds (g : ChainGraph) (existing : List (Option NodeId)) (mem : Member) : Prop :=
  ∀ pin, mem.node.pin = some pin → 0 < mem.index → ∀ prev,
    (existing[mem.index - 1]?).join.bind g.pinOf = some prev → prev.canPrecede pin = true

theorem impliedNumber_eq_ok {base next : Option Nat} {physical : UInt32} :
    impliedNumber base mem physical = .ok next ↔ mem.index ≤ physical.toNat ∧
      (∀ n, base = some n → n = physical.toNat - mem.index) ∧
      next = some (physical.toNat - mem.index) := by
  unfold impliedNumber
  split
  · exact iff_of_false (by intro no; cases no) fun ⟨bound, _⟩ => by omega
  · next bound =>
    cases base with
    | none => simp [Nat.le_of_not_lt bound, eq_comm]
    | some n =>
      simp only [Option.some.injEq, forall_eq', Nat.le_of_not_lt bound, true_and]
      split
      · next apart => exact iff_of_false (by intro no; cases no) fun ⟨same, _⟩ => apart same
      · next same =>
        have same := not_not.mp same
        rw [same]
        simp [eq_comm]

/-- What a member asks of the number of the first place. -/
theorem baseNumber_concat_eq_ok {next : Option Nat} :
    g.baseNumber existing (ms ++ [mem]) = .ok next ↔ mem.Succeeds g existing ∧
      ∃ base, g.baseNumber existing ms = .ok base ∧
        (mem.node.pin.bind (·.physical) = none → next = base) ∧
        ∀ physical, mem.node.pin.bind (·.physical) = some physical →
          impliedNumber base mem physical = .ok next := by
  have succeeds : ∀ pin, mem.node.pin = some pin → (mem.Succeeds g existing ↔
      ¬ ((if mem.index = 0 then none else (existing[mem.index - 1]?).join.bind g.pinOf).any
        fun prev => !prev.canPrecede pin) = true) := by
    intro pin isPin
    unfold Member.Succeeds
    rw [isPin]
    split
    · next start => simp [start]
    · next later =>
      simp only [Option.some.injEq, forall_eq', Nat.pos_of_ne_zero later, forall_const,
        Option.any_eq_true, Bool.not_eq_true', not_exists, not_and, Bool.not_eq_false]
  unfold baseNumber
  rw [foldlM_append, except_bind_eq_ok, ← exists_and_left]
  refine exists_congr fun base => Iff.trans (and_congr_right fun _ => ?_) and_left_comm
  simp only [foldlM_cons, foldlM_nil, bind_pure]
  cases isPin : mem.node.pin with
  | none => simp [Member.Succeeds, isPin, @eq_comm _ base]
  | some pin =>
    rw [succeeds pin isPin]
    cases isPhysical : pin.physical with
    | none =>
      simp only [isPhysical, except_bind_eq_ok, except_unless_throw_eq_ok, except_pure_eq_ok]
      simp [isPhysical, @eq_comm _ base, and_comm]
    | some physical =>
      simp only [isPhysical, except_bind_eq_ok, except_unless_throw_eq_ok, except_pure_eq_ok]
      simp [isPhysical, and_comm]

/-- Each member can follow the one before it, and those with a number agree on the first place. -/
theorem numbered_of_baseNumber {number : Option Nat}
    (found : g.baseNumber existing ms = .ok number) :
    (∀ mem ∈ ms, mem.Succeeds g existing) ∧ ∀ mem ∈ ms, ∀ physical,
      mem.node.pin.bind (·.physical) = some physical →
        ∃ start, number = some start ∧ physical.toNat = start + mem.index := by
  induction ms using reverseRecOn generalizing number with
  | nil => exact ⟨forall_mem_nil _, forall_mem_nil _⟩
  | append_singleton ms mem ih =>
    obtain ⟨succeeds, base, found, free, fixed⟩ := baseNumber_concat_eq_ok.mp found
    obtain ⟨each, known⟩ := ih found
    refine ⟨forall_mem_append.mpr ⟨each, forall_mem_singleton.mpr succeeds⟩,
      forall_mem_append.mpr ⟨fun other isMem physical isPhysical => ?_,
        forall_mem_singleton.mpr fun physical isPhysical => ?_⟩⟩
    · obtain ⟨start, rfl, same⟩ := known other isMem physical isPhysical
      refine ⟨start, ?_, same⟩
      cases isNumber : mem.node.pin.bind (·.physical) with
      | none => exact free isNumber
      | some number =>
        obtain ⟨_, agrees, rfl⟩ := impliedNumber_eq_ok.mp (fixed number isNumber)
        rw [agrees start rfl]
    · obtain ⟨bound, _, rfl⟩ := impliedNumber_eq_ok.mp (fixed physical isPhysical)
      exact ⟨_, rfl, (Nat.sub_add_cancel bound).symm⟩

/-- There is a number for the first place exactly if the pins of the members agree on it, and each
can follow the one before it. -/
theorem exists_baseNumber_iff : (∃ number, g.baseNumber existing ms = .ok number) ↔
    (∃ start, ∀ mem ∈ ms, mem.Numbered start) ∧ ∀ mem ∈ ms, mem.Succeeds g existing := by
  constructor
  · rintro ⟨number, found⟩
    obtain ⟨succeeds, known⟩ := numbered_of_baseNumber found
    refine ⟨⟨number.getD 0, fun mem isMem physical isPhysical => ?_⟩, succeeds⟩
    obtain ⟨start, rfl, same⟩ := known mem isMem physical isPhysical
    exact same
  · rintro ⟨⟨start, numbered⟩, succeeds⟩
    suffices ∃ number, g.baseNumber existing ms = .ok number ∧ ∀ n, number = some n → n = start from
      this.imp fun _ => And.left
    induction ms using reverseRecOn with
    | nil => exact ⟨none, rfl, nofun⟩
    | append_singleton ms mem ih =>
      obtain ⟨numbered, here⟩ := forall_mem_append.mp numbered
      obtain ⟨succeeds, own⟩ := forall_mem_append.mp succeeds
      obtain ⟨base, found, known⟩ := ih succeeds numbered
      simp only [baseNumber_concat_eq_ok]
      have own := own mem (mem_singleton_self mem)
      cases isNumber : mem.node.pin.bind (·.physical) with
      | none => exact ⟨base, ⟨own, base, found, fun _ => rfl, nofun⟩, known⟩
      | some physical =>
        have same := here mem (mem_singleton_self mem) physical isNumber
        refine ⟨some start, ⟨own, base, found, nofun, fun one isOther => ?_⟩,
          fun _ equal => (Option.some_inj.mp equal).symm⟩
        cases isOther
        refine impliedNumber_eq_ok.mpr ⟨by omega, fun n isBase => ?_, ?_⟩
        · rw [known n isBase, same, Nat.add_sub_cancel]
        · rw [same, Nat.add_sub_cancel]

/-- Mandatory links of members go to the registers beside them, where these are decided. -/
theorem neighbourConflict_eq_none : g.neighbourConflict slots existing ms = none ↔ ∀ mem ∈ ms,
      (∀ prev, mem.node.prev = some prev → 0 < mem.index → decided slots (mem.index - 1) = true →
        g.optionalAfter prev = false → (existing[mem.index - 1]?).join = some prev) ∧
      (∀ next, mem.node.next = some next → mem.index + 1 < slots.length →
        decided slots (mem.index + 1) = true → mem.node.optionalLink = false →
          (existing[mem.index + 1]?).join = some next) := by
  unfold neighbourConflict
  rw [findSome?_eq_none_iff]
  refine forall₂_congr fun mem _ => ?_
  simp only [ite_eq_right_iff, reduceCtorEq, imp_false, Bool.or_eq_true, not_or, not_not,
    Option.any_eq_true, not_exists, not_and, Bool.and_eq_true, decide_eq_true_eq,
    Bool.not_eq_true', and_imp]

theorem decided_iff : decided (ops.map .register) i = true ↔ i < ops.length := by
  unfold decided
  rw [getElem?_map]
  by_cases lt : i < ops.length
  · simp [lt]
  · simp [lt]

/-! ### The extent of a candidate -/

/-- The place, counted from the candidate, at which the run of a member begins. -/
def startOf (g : ChainGraph) (mem : Member) : Int :=
  (mem.index : Int) - ((g.segment mem.id true).position : Int)

/-- The place at which the run of a member ends. -/
def endOf (g : ChainGraph) (mem : Member) : Int :=
  g.startOf mem + ((g.segment mem.id true).length : Int)

/-- The run of a member is part of an extent. -/
structure Covers (g : ChainGraph) (extent : Extent) (mem : Member) : Prop where
  low : extent.low ≤ g.startOf mem
  high : g.endOf mem ≤ extent.high
  start : extent.starts.get? (g.segment mem.id true).head = some (g.startOf mem)
  bank : ∀ bank, (g.segment mem.id true).pinnedBank = some bank → extent.bank = some bank

/-- An extent is within another, which has all its runs and its bank. -/
structure Extent.Within (extent extent' : Extent) : Prop where
  starts : ∀ head start, extent.starts.get? head = some start →
    extent'.starts.get? head = some start
  bank : ∀ bank, extent.bank = some bank → extent'.bank = some bank
  low : extent'.low ≤ extent.low
  high : extent.high ≤ extent'.high

theorem Covers.mono {extent : Extent} (covers : g.Covers extent mem)
    (within : extent.Within extent') : g.Covers extent' mem where
  low := Int.le_trans within.low covers.low
  high := Int.le_trans covers.high within.high
  start := within.starts _ _ covers.start
  bank bank pinned := within.bank bank (covers.bank bank pinned)

/-- What adding the runs of some members to an extent comes to. -/
structure Spans (g : ChainGraph) (members : List Member) (first last : Extent) : Prop
    extends first.Within last where
  covers : ∀ mem ∈ members, g.Covers last mem
  low_cases : last.low = first.low ∨ ∃ mem ∈ members, last.low = g.startOf mem
  high_cases : last.high = first.high ∨ ∃ mem ∈ members, last.high = g.endOf mem
  bank_cases : ∀ bank, last.bank = some bank → first.bank = some bank ∨
    ∃ mem ∈ members, (g.segment mem.id true).pinnedBank = some bank

theorem extend_eq_ok {extent result : Extent} : g.extend extent mem = .ok result ↔
      (∀ start, extent.starts.get? (g.segment mem.id true).head = some start →
        start = g.startOf mem) ∧ (∀ known bank, extent.bank = some known →
        (g.segment mem.id true).pinnedBank = some bank → known = bank) ∧
      result = ⟨extent.bank <|> (g.segment mem.id true).pinnedBank,
        if (extent.starts.get? (g.segment mem.id true).head).isSome then extent.starts
        else extent.starts.insert (g.segment mem.id true).head (g.startOf mem),
        min extent.low (g.startOf mem), max extent.high (g.endOf mem)⟩ := by
  unfold extend startOf endOf startOf
  simp only
  generalize g.segment mem.id true = segment
  cases extent.starts.get? segment.head with
  | none =>
    cases extent.bank with
    | none => simp [pure, Except.pure, bind, Except.bind, eq_comm]
    | some one =>
      cases segment.pinnedBank with
      | none => simp [pure, Except.pure, bind, Except.bind, eq_comm]
      | some other =>
        by_cases same : one = other <;>
          simp [same, pure, Except.pure, bind, Except.bind, throw, throwThe,
            MonadExceptOf.throw, eq_comm]
  | some start =>
    by_cases agrees : start = (mem.index : Int) - (segment.position : Int)
    · cases extent.bank with
      | none => simp [agrees, pure, Except.pure, bind, Except.bind, eq_comm]
      | some one =>
        cases segment.pinnedBank with
        | none => simp [agrees, pure, Except.pure, bind, Except.bind, eq_comm]
        | some other =>
          by_cases same : one = other <;>
            simp [same, agrees, pure, Except.pure, bind, Except.bind, throw, throwThe,
              MonadExceptOf.throw, eq_comm]
    · simp [agrees, bind, Except.bind, throw, throwThe, MonadExceptOf.throw]

theorem spans_of_extend {first last : Extent} (stepped : g.extend first mem = .ok last) :
    g.Spans [mem] first last := by
  obtain ⟨agrees, sameBank, rfl⟩ := extend_eq_ok.mp stepped
  have here : mem ∈ [mem] := mem_singleton_self mem
  refine ⟨⟨fun head start found => ?_, fun bank found => by simp [found], Int.min_le_left ..,
    Int.le_max_left ..⟩, forall_mem_singleton.mpr ⟨Int.min_le_right .., Int.le_max_right .., ?_,
    fun bank found => ?_⟩, ?_, ?_, fun bank found => ?_⟩
  · simp only
    split
    · exact found
    · next missing =>
      have apart : head ≠ (g.segment mem.id true).head := by
        rintro rfl
        rw [found] at missing
        exact missing rfl
      rw [Assoc.get?_insert_of_ne _ _ apart, found]
  · simp only
    cases found : first.starts.get? (g.segment mem.id true).head with
    | none => simp
    | some start => rw [Option.isSome_some, if_pos rfl, found, agrees start found]
  · simp only
    cases old : first.bank with
    | none => exact found
    | some one =>
      rw [sameBank one bank old found]
      rfl
  · have chosen : min first.low (g.startOf mem) = first.low ∨
        min first.low (g.startOf mem) = g.startOf mem := by omega
    exact chosen.imp_right fun same => ⟨mem, here, same⟩
  · have chosen : max first.high (g.endOf mem) = first.high ∨
        max first.high (g.endOf mem) = g.endOf mem := by omega
    exact chosen.imp_right fun same => ⟨mem, here, same⟩
  · simp only at found
    cases old : first.bank with
    | none => exact .inr ⟨mem, here, by rw [old] at found; exact found⟩
    | some one => exact .inl (by rw [old] at found; exact found)

theorem Spans.append {ms' : List Member} {first mid last : Extent} (front : g.Spans ms first mid)
    (back : g.Spans ms' mid last) : g.Spans (ms ++ ms') first last := by
  have early : ∀ {p : Member → Prop}, (∃ mem ∈ ms, p mem) → ∃ mem ∈ ms ++ ms', p mem :=
    fun ⟨mem, isMem, holds⟩ => ⟨mem, mem_append_left _ isMem, holds⟩
  have late : ∀ {p : Member → Prop}, (∃ mem ∈ ms', p mem) → ∃ mem ∈ ms ++ ms', p mem :=
    fun ⟨mem, isMem, holds⟩ => ⟨mem, mem_append_right _ isMem, holds⟩
  refine ⟨⟨fun head start found => back.starts head start (front.starts head start found),
    fun bank found => back.bank bank (front.bank bank found), Int.le_trans back.low front.low,
    Int.le_trans front.high back.high⟩, forall_mem_append.mpr ⟨fun mem isMem =>
    (front.covers mem isMem).mono back.toWithin, back.covers⟩, ?_, ?_, fun bank found => ?_⟩
  · rcases back.low_cases with same | new
    · exact same ▸ front.low_cases.imp_right early
    · exact .inr (late new)
  · rcases back.high_cases with same | new
    · exact same ▸ front.high_cases.imp_right early
    · exact .inr (late new)
  · rcases back.bank_cases bank found with old | new
    · exact (front.bank_cases bank old).imp_right early
    · exact .inr (late new)

theorem spans_of_foldlM {first last : Extent} (folded : ms.foldlM g.extend first = .ok last) :
    g.Spans ms first last := by
  induction ms generalizing first with
  | nil =>
    cases folded
    exact ⟨⟨fun _ _ found => found, fun _ found => found, Int.le_refl _, Int.le_refl _⟩,
      forall_mem_nil _, .inl rfl, .inl rfl, fun _ found => .inl found⟩
  | cons mem rest ih =>
    obtain ⟨mid, stepped, later⟩ := foldlM_cons_ok.mp folded
    exact (spans_of_extend stepped).append (ih later)

/-- Runs can be put together if those with the same head agree on where it is, and all agree on
their bank. -/
theorem exists_foldlM_extend (node : NodeId → Int) (bank : Option Bank) {extent : Extent}
    (begins : ∀ mem ∈ ms, g.startOf mem = node (g.segment mem.id true).head)
    (banks : ∀ mem ∈ ms, ∀ own, (g.segment mem.id true).pinnedBank = some own → bank = some own)
    (isBank : ∀ own, extent.bank = some own → bank = some own)
    (known : ∀ head start, extent.starts.get? head = some start → start = node head) :
    ∃ last, ms.foldlM g.extend extent = .ok last := by
  induction ms generalizing extent with
  | nil => exact ⟨extent, rfl⟩
  | cons mem rest ih =>
    obtain ⟨begin, begins⟩ := forall_mem_cons.mp begins
    obtain ⟨pinned, banks⟩ := forall_mem_cons.mp banks
    obtain ⟨mid, stepped⟩ : ∃ mid, g.extend extent mem = .ok mid :=
      ⟨_, extend_eq_ok.mpr ⟨fun start found => (known _ start found).trans begin.symm,
        fun one other isOne isOther =>
          Option.some_inj.mp ((isBank one isOne).symm.trans (pinned other isOther)), rfl⟩⟩
    have spans := spans_of_extend stepped
    obtain ⟨_, _, isMiddle⟩ := extend_eq_ok.mp stepped
    refine (ih begins banks (fun own isOwn => ?_) fun head start found => ?_).imp fun last later =>
      foldlM_cons_ok.mpr ⟨mid, stepped, later⟩
    · rcases spans.bank_cases own isOwn with old | ⟨other, isMem, new⟩
      · exact isBank own old
      · exact pinned own (mem_singleton.mp isMem ▸ new)
    · rw [isMiddle] at found
      simp only at found
      split at found
      · exact known head start found
      · by_cases same : head = (g.segment mem.id true).head
        · rw [same, Assoc.get?_insert_self] at found
          rw [← Option.some_inj.mp found, begin, same]
        · rw [Assoc.get?_insert_of_ne _ _ same] at found
          exact known head start found

/-! ### Parts of a candidate -/

/-- A candidate is part of another: it has some of its first places, and some of them are
undecided. -/
structure Part (slots slots' : List Slot) : Prop where
  length_le : slots.length ≤ slots'.length
  same : ∀ (index : Nat) slot, slots[index]? = some slot →
    slot = .undecided ∨ slots'[index]? = some slot

namespace Part

theorem take (count : Nat) (slots : List Slot) : Part (slots.take count) slots := by
  refine ⟨length_take_le' .., fun i slot here => .inr ?_⟩
  rw [getElem?_take] at here
  split at here
  · exact here
  · cases here

variable {slots slots' : List Slot} (part : Part slots slots')

include part

theorem existingNodes (here : (g.existingNodes slots)[i]? = some (some id)) :
    (g.existingNodes slots')[i]? = some (some id) := by
  unfold ChainGraph.existingNodes at here ⊢
  rw [getElem?_map] at here ⊢
  obtain ⟨slot, listed, named⟩ := Option.map_eq_some_iff.mp here
  rcases part.same i slot listed with rfl | there
  · cases named
  · rw [there, Option.map_some, named]

theorem mem_members (isMem : mem ∈ g.members slots) : mem ∈ g.members slots' :=
  mem_membersOf.mpr ((mem_membersOf.mp isMem).imp_left part.existingNodes)

/-- What is beside a member is the same in the whole, if it is decided. -/
theorem beside (known : decided slots i = true) : decided slots' i = true ∧
    (g.existingNodes slots')[i]? = (g.existingNodes slots)[i]? := by
  obtain ⟨slot, here, isDecided⟩ := (Option.any_eq_true _ _).mp known
  have isDecided := of_decide_eq_true isDecided
  have there := (part.same i slot here).resolve_left isDecided
  unfold decided ChainGraph.existingNodes
  rw [getElem?_map, getElem?_map, here, there]
  exact ⟨decide_eq_true isDecided, rfl⟩

theorem operandConflict (clear : operandConflict slots' = none) :
    ChainGraph.operandConflict slots = none := by
  rw [operandConflict_slots_eq_none] at clear ⊢
  intro i op here
  obtain ⟨plain, new⟩ := clear i op ((part.same i _ here).resolve_left Slot.noConfusion)
  refine ⟨plain, fun repeated => new ?_⟩
  obtain ⟨j, bound, early⟩ := mem_take_iff_getElem.mp repeated
  have early : slots[j]? = some (.register op) := by rw [getElem?_eq_getElem (by omega), early]
  have there := (part.same j _ early).resolve_left Slot.noConfusion
  obtain ⟨inside, same⟩ := List.getElem?_eq_some_iff.mp there
  exact mem_take_iff_getElem.mpr ⟨j, by omega, same⟩

theorem baseParity {base' : Parity} (parities : baseParity (g.members slots') parity = .ok base') :
    ∃ base, ChainGraph.baseParity (g.members slots) parity = .ok base := by
  obtain ⟨asked, each⟩ := parity_of_baseParity parities
  refine (baseParity_of_agreeing ?_ fun mem isMem => each mem (part.mem_members isMem)).imp
    fun _ => And.left
  exact or_iff_not_imp_left.mpr fun wanted => (asked wanted).symm

theorem baseNumber
    (numbers : ∃ number, g.baseNumber (g.existingNodes slots') (g.members slots') = .ok number) :
    ∃ number, g.baseNumber (g.existingNodes slots) (g.members slots) = .ok number := by
  obtain ⟨⟨start, numbered⟩, succeeds⟩ := exists_baseNumber_iff.mp numbers
  refine exists_baseNumber_iff.mpr ⟨⟨start, fun mem isMem => numbered mem (part.mem_members isMem)⟩,
    fun mem isMem pin isPin later prev isPrev => ?_⟩
  refine succeeds mem (part.mem_members isMem) pin isPin later prev ?_
  obtain ⟨id, known, pinned⟩ := Option.bind_eq_some_iff.mp isPrev
  rw [part.existingNodes (Option.join_eq_some_iff.mp known)]
  exact pinned

theorem neighbourConflict
    (clear : g.neighbourConflict slots' (g.existingNodes slots') (g.members slots') = none) :
    g.neighbourConflict slots (g.existingNodes slots) (g.members slots) = none := by
  refine neighbourConflict_eq_none.mpr fun mem isMem => ?_
  have here := neighbourConflict_eq_none.mp clear mem (part.mem_members isMem)
  refine ⟨fun prev back later known must => ?_, fun next onward bound known must => ?_⟩
  · obtain ⟨known', same⟩ := part.beside known
    rw [← same]
    exact here.1 prev back later known' must
  · obtain ⟨known', same⟩ := part.beside known
    rw [← same]
    exact here.2 next onward (bound.trans_le part.length_le) known' must

theorem extent
    (extents : (g.members slots').foldlM g.extend ⟨none, .empty, 0, slots'.length⟩ = .ok extent') :
    ∃ extent, (g.members slots).foldlM g.extend ⟨none, .empty, 0, slots.length⟩ = .ok extent ∧
      (∀ bank, extent.bank = some bank → extent'.bank = some bank) ∧
      extent'.low ≤ extent.low ∧ extent.high ≤ extent'.high := by
  have whole := spans_of_foldlM extents
  have covers := fun mem isMem => whole.covers mem (part.mem_members isMem)
  obtain ⟨extent, folded⟩ : ∃ extent, (g.members slots).foldlM g.extend
      ⟨none, .empty, 0, slots.length⟩ = .ok extent := by
    refine exists_foldlM_extend (fun head => (extent'.starts.get? head).getD 0) extent'.bank
      (fun mem isMem => ?_) (fun mem isMem => (covers mem isMem).bank) whole.bank
      nofun
    rw [(covers mem isMem).start]
    rfl
  have spans := spans_of_foldlM folded
  refine ⟨extent, folded, fun bank isBank => ?_, ?_, ?_⟩
  · rcases spans.bank_cases bank isBank with old | ⟨mem, isMem, pinned⟩
    · exact whole.bank bank old
    · exact (covers mem isMem).bank bank pinned
  · rcases spans.low_cases with same | ⟨mem, isMem, same⟩
    · exact same ▸ whole.low
    · exact same ▸ (covers mem isMem).low
  · rcases spans.high_cases with same | ⟨mem, isMem, same⟩
    · exact same ▸ Int.le_trans (Int.ofNat_le.mpr part.length_le) whole.high
    · exact same ▸ (covers mem isMem).high

end Part

/-- Of a candidate that fits, a part passes every check but possibly the last: whether there is
room in its bank. -/
theorem Part.exists_extent {slots' : List Slot} (part : Part slots slots')
    (fits : g.fitVirtual slots' parity = .ok fit) : ∃ base extent,
      (g.members slots).foldlM g.extend ⟨none, .empty, 0, slots.length⟩ = .ok extent ∧
      (∀ bank, extent.bank = some bank → fit.bank = bank) ∧
      (extent.high - extent.low).toNat ≤ g.limit fit.bank ∧ g.fitVirtual slots parity =
        if g.limit (extent.bank.getD .temp) < (extent.high - extent.low).toNat then
          .error (.tooLong (extent.high - extent.low).toNat (g.limit (extent.bank.getD .temp)))
        else .ok ⟨g.existingNodes slots, base, extent.bank.getD .temp⟩ := by
  obtain ⟨clear, base, number, extent', parities, numbers, neighbours, extents, room, rfl⟩ :=
    fitVirtual_eq_ok.mp fits
  obtain ⟨base', parities'⟩ := part.baseParity parities
  obtain ⟨number', numbers'⟩ := part.baseNumber ⟨number, numbers⟩
  obtain ⟨extent, extents', isBank, low, high⟩ := part.extent extents
  refine ⟨base', extent, extents', fun bank known => ?_, ?_, ?_⟩
  · rw [isBank bank known]
    rfl
  · exact Nat.le_trans (Int.toNat_le_toNat (Int.sub_le_sub high low)) room
  · unfold fitVirtual
    simp only [part.operandConflict clear, parities', numbers', part.neighbourConflict neighbours,
      extents', bind, Except.bind]
    rfl

/-- Without the register that settles the bank, there may be less room. -/
theorem Part.fitVirtual_cases {slots' : List Slot} (part : Part slots slots')
    (fits : g.fitVirtual slots' parity = .ok fit) : (∃ fit', g.fitVirtual slots parity = .ok fit') ∨
      ∃ length, g.fitVirtual slots parity = .error (.tooLong length (g.limit .temp)) ∧
        g.limit .temp < length ∧ length ≤ g.limit fit.bank := by
  obtain ⟨base, extent, _, isBank, shorter, verdict⟩ := part.exists_extent fits
  rw [verdict]
  split
  · next long =>
    cases unset : extent.bank with
    | some bank =>
      rw [unset, Option.getD_some, ← isBank bank unset] at long
      exact absurd shorter (Nat.not_le_of_lt long)
    | none =>
      rw [unset] at long
      exact .inr ⟨_, rfl, long, shorter⟩
  · exact .inl ⟨_, rfl⟩

/-- A part with a member whose run is in the bank of the whole has as much room. -/
theorem Part.fitVirtual_of_bank {slots' : List Slot} (part : Part slots slots')
    (fits : g.fitVirtual slots' parity = .ok fit) (isMem : mem ∈ g.members slots)
    (same : fit.bank = (g.segment mem.id true).pinnedBank.getD .temp) :
    ∃ fit', g.fitVirtual slots parity = .ok fit' := by
  obtain ⟨base, extent, extents, isBank, shorter, verdict⟩ := part.exists_extent fits
  have bank : extent.bank.getD .temp = fit.bank := by
    cases pinned : (g.segment mem.id true).pinnedBank with
    | some bank =>
      have set := ((spans_of_foldlM extents).covers mem isMem).bank bank pinned
      rw [set, isBank bank set]
      rfl
    | none =>
      cases unset : extent.bank with
      | some bank => exact (isBank bank unset).symm
      | none => rw [same, pinned]
  rw [verdict, bank, if_neg (Nat.not_lt_of_le shorter)]
  exact ⟨_, rfl⟩

/-! ### Where a register stands on its run -/

/-- How many registers precede a register on its mandatory run. -/
def ahead (g : ChainGraph) (r : Register) : Nat :=
  (g.find r).elim 0 fun id => (g.segment id true).position

/-- How many registers follow a register on its mandatory run. -/
def beyond (g : ChainGraph) (r : Register) : Nat :=
  (g.find r).elim 0 fun id => (g.segment id true).length - (g.segment id true).position - 1

/-- The bank that a register is pinned to by its mandatory run. -/
def runBank (g : ChainGraph) (r : Register) : Option Bank :=
  (g.find r).bind fun id => (g.segment id true).pinnedBank

/-- How many places a candidate takes, with what is required before and behind it. -/
def span (g : ChainGraph) (regs : List Register) : Nat :=
  regs.head?.elim 0 g.ahead + regs.length + regs.getLast?.elim 0 g.beyond

section Standing

variable {pre post : List Register} {r lo hi : Register}

section

variable (shaped : g.Shaped)

include shaped

theorem Shaped.standing (run : IsRun (g.Follows true) (pre ++ r :: post)) :
    g.ahead r = pre.length ∧ g.beyond r = post.length ∧
      g.runBank r = g.bankAmong (pre ++ r :: post) := by
  obtain ⟨bank, front, back⟩ := shaped.segment_elim run
  unfold ahead beyond runBank
  cases known : g.find r with
  | none =>
    rw [known] at bank front back
    simp only [Option.map_none, Option.elim_none] at bank front back
    exact ⟨by simp only [Option.elim_none]; omega, by simp only [Option.elim_none]; omega, bank⟩
  | some id =>
    rw [known] at bank front back
    simp only [Option.map_some, Option.elim_some] at bank front back
    exact ⟨by simp only [Option.elim_some]; omega, by simp only [Option.elim_some]; omega, bank⟩

theorem Shaped.standing_step (follows : g.Follows true lo hi) :
    g.ahead hi = g.ahead lo + 1 ∧ g.beyond lo = g.beyond hi + 1 ∧ g.runBank hi = g.runBank lo := by
  obtain ⟨pre, post, run⟩ := shaped.exists_registerRun true lo
  obtain ⟨front, back, split⟩ := run.split_of_next (shaped.follows_rightUnique true)
    mem_append_cons_self follows
  rw [split] at run
  obtain ⟨aheadLow, beyondLow, bankLow⟩ := shaped.standing run
  have split' : front ++ lo :: hi :: back = (front ++ [lo]) ++ hi :: back := by simp
  rw [split'] at run
  obtain ⟨aheadHigh, beyondHigh, bankHigh⟩ := shaped.standing run
  rw [aheadLow, beyondLow, bankLow, aheadHigh, beyondHigh, bankHigh]
  simp

theorem Shaped.ahead_eq_zero (free : ∀ one, ¬ g.Follows true one r) : g.ahead r = 0 := by
  obtain ⟨pre, post, run⟩ := shaped.exists_registerRun true r
  rw [(shaped.standing run).1]
  cases pre using reverseRecOn with
  | nil => rfl
  | append_singleton front last =>
    have linked := run.linked
    rw [append_assoc, singleton_append] at linked
    exact absurd (isChain_append_cons_cons.mp linked).2.1 (free last)

theorem Shaped.beyond_eq_zero (free : ∀ one, ¬ g.Follows true r one) : g.beyond r = 0 := by
  obtain ⟨pre, post, run⟩ := shaped.exists_registerRun true r
  rw [(shaped.standing run).2.1]
  cases post with
  | nil => rfl
  | cons next rest => exact absurd (isChain_append_cons_cons.mp run.linked).2.1 (free next)

end

end Standing

/-! ### Candidates whose registers do not contradict each other -/

/-- The mandatory links of the registers of a candidate agree with their order in it. -/
structure Ordered (g : ChainGraph) (regs : List Register) : Prop where
  next : ∀ index low high other, regs[index]? = some low →
    regs[index + 1]? = some high → g.Follows true low other → other = high
  prev : ∀ index low high other, regs[index]? = some low →
    regs[index + 1]? = some high → g.Follows true other high → other = low

namespace Ordered

variable {regs : List Register}

section

variable (ordered : g.Ordered regs) (shaped : g.Shaped)

include ordered shaped

/-- What stands before the registers of a candidate stands before the first one. -/
theorem ahead_le (starts : regs[0]? = some first) (placed : regs[i]? = some r) :
    g.ahead r ≤ i + g.ahead first := by
  induction i generalizing r with
  | zero =>
    cases starts.symm.trans placed
    omega
  | succ i ih =>
    have bound := lt_of_getElem? placed
    have here : regs[i]? = some regs[i] := getElem?_eq_getElem (by omega)
    by_cases follows : g.Follows true regs[i] r
    · rw [(shaped.standing_step follows).1]
      have pre := ih here
      omega
    · rw [shaped.ahead_eq_zero fun other related => ?_]
      · omega
      · exact follows (ordered.prev i _ _ other here placed related ▸ related)

/-- What stands behind the registers of a candidate stands behind the last one. -/
theorem beyond_le (ends : regs[regs.length - 1]? = some last) (placed : regs[i]? = some r) :
    i + 1 + g.beyond r ≤ regs.length + g.beyond last := by
  have bound := lt_of_getElem? placed
  obtain ⟨distance, split⟩ : ∃ distance, regs.length - 1 = i + distance :=
    ⟨regs.length - 1 - i, by omega⟩
  induction distance generalizing i r with
  | zero =>
    rw [split, Nat.add_zero, placed] at ends
    cases ends
    omega
  | succ distance ih =>
    have bound' : i + 1 < regs.length := by omega
    have there : regs[i + 1]? = some regs[i + 1] := getElem?_eq_getElem bound'
    have later := ih there bound' (by omega)
    by_cases follows : g.Follows true r regs[i + 1]
    · rw [(shaped.standing_step follows).2.1]
      omega
    · rw [shaped.beyond_eq_zero fun one related => ?_]
      · omega
      · exact follows (ordered.next i _ _ one placed there related ▸ related)

/-- The beginning of a candidate takes no more places than the whole. -/
theorem span_take_le (count : Nat) : g.span (regs.take count) ≤ g.span regs := by
  rcases Nat.lt_or_ge count regs.length with shorter | whole
  · cases count with
    | zero =>
      rw [take_zero]
      exact Nat.zero_le _
    | succ count =>
      have placed : regs[count]? = some regs[count] := getElem?_eq_getElem (by omega)
      obtain ⟨last, ends⟩ : ∃ last, regs[regs.length - 1]? = some last :=
        ⟨_, getElem?_eq_getElem (by omega)⟩
      have final : (regs.take (count + 1)).getLast? = some regs[count] := by
        rw [getLast?_eq_getElem?, length_take, Nat.min_eq_left (by omega),
          Nat.add_sub_cancel, getElem?_take_of_lt (Nat.lt_succ_self count), placed]
      have post := ordered.beyond_le shaped ends placed
      unfold span
      rw [final, getLast?_eq_getElem?, ends, head?_take, if_neg (Nat.succ_ne_zero count),
        length_take, Nat.min_eq_left (by omega)]
      simp only [Option.elim_some]
      omega
  · rw [take_of_length_le whole]

end

end Ordered

theorem Shaped.ordered_of_neighbours (shaped : g.Shaped)
    (clear : g.neighbourConflict (regs.map .register) (g.existingNodes (regs.map .register))
      (g.members (regs.map .register)) = none) : g.Ordered regs := by
  have each := neighbourConflict_eq_none.mp clear
  have beside : ∀ {i : Nat} {r id}, regs[i]? = some r →
      ((g.existingNodes (regs.map .register))[i]?).join = some id → g.find r = some id := by
    intro i r id placed joined
    rw [getElem?_existingNodes, placed, Option.map_some, Option.join_some] at joined
    exact joined
  refine ⟨?_, ?_⟩
  · rintro i lo hi one here there ⟨a, b, lowNamed, otherNamed, leads⟩
    obtain ⟨n, found, onward, must⟩ := leads
    obtain ⟨n', found', _, _, isMem⟩ := shaped.mem_members here lowNamed
    cases found.symm.trans found'
    have bound := lt_of_getElem? there
    have joined := (each _ isMem).2 b onward (by rwa [length_map]) (decided_iff.mpr bound)
      (must rfl)
    exact shaped.find_inj otherNamed (beside there joined)
  · rintro i lo hi one here there ⟨a, b, otherNamed, highNamed, leads⟩
    obtain ⟨n, found, _, _, isMem⟩ := shaped.mem_members there highNamed
    obtain ⟨_, successor, reached, back⟩ := shaped.live_of_leads leads
    cases found.symm.trans reached
    obtain ⟨predecessor, found', _, must⟩ := leads
    have optional : g.optionalAfter a = false := by
      rw [optionalAfter, found', Option.any_some]
      exact must rfl
    have bound := lt_of_getElem? here
    have joined := (each _ isMem).1 a back (Nat.succ_pos i) (decided_iff.mpr bound) optional
    exact shaped.find_inj otherNamed (beside here joined)

/-- The bank that the runs of a candidate's registers are pinned to. -/
def bankFor (g : ChainGraph) (regs : List Register) : Option Bank := regs.findSome? g.runBank

theorem Shaped.startOf_eq (shaped : g.Shaped) (known : g.find r = some mem.id) :
    g.startOf mem = (mem.index : Int) - g.ahead r ∧
      g.endOf mem = (mem.index : Int) + g.beyond r + 1 := by
  obtain ⟨pre, post, run⟩ := shaped.exists_registerRun true r
  obtain ⟨pos, length, _⟩ := shaped.segment_of_run known run
  obtain ⟨aheadEq, beyondEq, _⟩ := shaped.standing run
  unfold endOf startOf
  rw [pos, length, aheadEq, beyondEq]
  push_cast
  omega

section Extents

variable {regs : List Register} {extent : Extent}

section

variable (shaped : g.Shaped) (ordered : g.Ordered regs)
  (spans : g.Spans (g.members (regs.map .register))
    ⟨none, .empty, 0, (regs.map register).length⟩ extent)

include shaped ordered spans

/-- The extent of a candidate begins where the run of its first register begins. -/
theorem Shaped.low_of_spans (starts : regs[0]? = some first) :
    extent.low = -(g.ahead first : Int) := by
  have lowFirst := spans.low
  refine Int.le_antisymm ?_ ?_
  · cases known : g.find first with
    | none =>
      have unknown : g.ahead first = 0 := by rw [ahead, known]; rfl
      simp only at lowFirst
      omega
    | some id =>
      obtain ⟨n, _, _, _, isMem⟩ := shaped.mem_members starts known
      have bound := (spans.covers _ isMem).low
      have start : g.startOf ⟨0, id, n⟩ = ((0 : Nat) : Int) - g.ahead first :=
        (shaped.startOf_eq known).1
      omega
  · rcases spans.low_cases with same | ⟨mem, isMem, same⟩
    · simp only at same
      omega
    · obtain ⟨r, placed, known, _⟩ := register_of_mem_members isMem
      have bound := ordered.ahead_le shaped starts placed
      have start := (shaped.startOf_eq known).1
      omega

/-- The extent of a candidate ends where the run of its last register ends. -/
theorem Shaped.high_of_spans (ends : regs[regs.length - 1]? = some last) :
    extent.high = (regs.length : Int) + g.beyond last := by
  have highFirst := spans.high
  simp only [length_map] at highFirst
  refine Int.le_antisymm ?_ ?_
  · rcases spans.high_cases with same | ⟨mem, isMem, same⟩
    · simp only [length_map] at same
      omega
    · obtain ⟨r, placed, known, _⟩ := register_of_mem_members isMem
      have bound := ordered.beyond_le shaped ends placed
      have stop := (shaped.startOf_eq known).2
      omega
  · cases known : g.find last with
    | none =>
      have unknown : g.beyond last = 0 := by rw [beyond, known]; rfl
      omega
    | some id =>
      obtain ⟨n, _, _, _, isMem⟩ := shaped.mem_members ends known
      have bound := (spans.covers _ isMem).high
      have stop : g.endOf ⟨regs.length - 1, id, n⟩ =
          ((regs.length - 1 : Nat) : Int) + g.beyond last + 1 :=
        (shaped.startOf_eq known).2
      have short := lt_of_getElem? ends
      omega

end

/-- The bank of an extent is that of the registers. -/
theorem Shaped.bank_of_spans (shaped : g.Shaped)
    (spans : g.Spans (g.members (regs.map .register))
      ⟨none, .empty, 0, (regs.map register).length⟩ extent) :
    extent.bank = g.bankFor regs := by
  unfold bankFor
  cases bankless : regs.findSome? g.runBank with
  | some bank =>
    obtain ⟨r, isMem, pinned⟩ := exists_of_findSome?_eq_some bankless
    obtain ⟨id, known, pinned'⟩ := Option.bind_eq_some_iff.mp pinned
    obtain ⟨i, placed⟩ := getElem?_of_mem isMem
    obtain ⟨n, _, _, _, mem'⟩ := shaped.mem_members placed known
    exact (spans.covers _ mem').bank bank pinned'
  | none =>
    cases missing : extent.bank with
    | none => rfl
    | some bank =>
      rcases spans.bank_cases bank missing with no | ⟨mem, isMem, pinned⟩
      · cases no
      · obtain ⟨r, placed, known, _⟩ := register_of_mem_members isMem
        have pinned' : g.runBank r = some bank := by
          rw [runBank, known, Option.bind_some]
          exact pinned
        rw [findSome?_eq_none_iff.mp bankless r (mem_of_getElem? placed)] at pinned'
        cases pinned'

/-- The extent of a candidate is what its registers and their runs take up. -/
theorem Shaped.span_of_spans (shaped : g.Shaped) (ordered : g.Ordered regs)
    (spans : g.Spans (g.members (regs.map .register))
      ⟨none, .empty, 0, (regs.map register).length⟩ extent) :
    (extent.high - extent.low).toNat = g.span regs ∧ extent.bank = g.bankFor regs := by
  refine ⟨?_, shaped.bank_of_spans spans⟩
  cases regs with
  | nil =>
    have noMember : ∀ mem : Member, mem ∉ g.members (([] : List Register).map .register) :=
      fun mem isMem => by simpa using (register_of_mem_members isMem)
    have lo : extent.low = 0 := by
      rcases spans.low_cases with same | ⟨mem, isMem, _⟩
      · exact same
      · exact absurd isMem (noMember mem)
    have hi : extent.high = 0 := by
      rcases spans.high_cases with same | ⟨mem, isMem, _⟩
      · exact same
      · exact absurd isMem (noMember mem)
    rw [lo, hi]
    rfl
  | cons first rest =>
    obtain ⟨last, ends⟩ : ∃ last, (first :: rest)[(first :: rest).length - 1]? = some last :=
      ⟨_, getElem?_eq_getElem (by simp)⟩
    have final : (first :: rest).getLast? = some last := by
      rw [getLast?_eq_getElem?]
      exact ends
    unfold span
    rw [final, shaped.low_of_spans ordered spans rfl, shaped.high_of_spans ordered spans ends]
    simp only [head?_cons, Option.elim_some]
    omega

end Extents

/-- Of a candidate that fits, every beginning fits for which there is room. -/
theorem Shaped.fitVirtual_take_iff (shaped : g.Shaped)
    (fits : g.fitVirtual (regs.map .register) parity = .ok fit) (count : Nat) :
    (∃ fit', g.fitVirtual ((regs.take count).map .register) parity = .ok fit') ↔
      g.span (regs.take count) ≤ g.limit ((g.bankFor (regs.take count)).getD .temp) := by
  obtain ⟨_, _, _, _, _, _, neighbours, _⟩ := fitVirtual_eq_ok.mp fits
  have part : Part ((regs.take count).map .register) (regs.map .register) := by
    rw [map_take]
    exact .take count _
  obtain ⟨base, extent, extents, _, _, verdict⟩ := part.exists_extent fits
  have ordered := shaped.ordered_of_neighbours (part.neighbourConflict neighbours)
  obtain ⟨length, bank⟩ := shaped.span_of_spans ordered (spans_of_foldlM extents)
  rw [verdict, ← length, ← bank]
  split
  · next long =>
    refine iff_of_false ?_ (Nat.not_le_of_lt long)
    rintro ⟨_, no⟩
    cases no
  · next short => exact iff_of_true ⟨_, rfl⟩ (Nat.le_of_not_lt short)

/-! ### What a candidate that fits satisfies -/

/-- The registers of a candidate can be made consecutive, if there is room for them. -/
structure Placeable (g : ChainGraph) (regs : List Register) (base : Parity) : Prop
    extends g.Ordered regs where
  distinct : regs.Nodup
  virtual : ∀ reg ∈ regs, reg.isVirtual = true
  parity : ∀ index reg, regs[index]? = some reg → g.parityOf reg ≠ .any →
    g.parityOf reg = base.atOffset index
  pins : ∀ index low high first second, regs[index]? = some low →
    regs[index + 1]? = some high → g.pinAt low = some first →
      g.pinAt high = some second → first.canPrecede second = true
  /-- Registers on one run are as far apart as in the candidate. -/
  places : ∀ index index' reg register', regs[index]? = some reg →
    regs[index']? = some register' → ∀ members, IsRun (g.Follows true) members →
      reg ∈ members → register' ∈ members → index + g.ahead register' = index' + g.ahead reg
  banks : ∀ reg ∈ regs, ∀ register' ∈ regs, ∀ bank bank',
    g.runBank reg = some bank → g.runBank register' = some bank' → bank = bank'

theorem hardwareBank_of_isVirtual (virt : r.isVirtual = true) : r.hardwareBank = none := by
  rw [Register.hardwareBank, eq_of_beq virt]

theorem isVirtual_of_kind (unnumbered : r.hardwareBank = none)
    (notImmediate : r.isImmediate = false) : r.isVirtual = true := by
  obtain ⟨kind, number⟩ := r
  cases kind <;> simp_all [Register.hardwareBank, Register.isImmediate, Register.isVirtual]

theorem Shaped.placeable_of_fit (shaped : g.Shaped)
    (fits : g.fitVirtual (regs.map .register) parity = .ok fit)
    (unnumbered : ∀ r ∈ regs, r.hardwareBank = none) : g.Placeable regs fit.parity := by
  obtain ⟨clear, base, number, extent, parities, numbers, neighbours, extents, _, rfl⟩ :=
    fitVirtual_eq_ok.mp fits
  obtain ⟨distinct, notImmediate⟩ := operandConflict_eq_none.mp clear
  have spans := spans_of_foldlM extents
  refine ⟨shaped.ordered_of_neighbours neighbours, distinct, ?_, ?_, ?_, ?_, ?_⟩
  · intro r isMem
    exact isVirtual_of_kind (unnumbered r isMem) (notImmediate r isMem)
  · intro i r placed fixed
    cases known : g.find r with
    | none => exact absurd (parityOf_of_none known) fixed
    | some id =>
      obtain ⟨n, _, parity, _, isMem⟩ := shaped.mem_members placed known
      rw [parity] at fixed ⊢
      exact (parity_of_baseParity parities).2 _ isMem fixed
  · intro i lo hi a b here there lowPin highPin
    cases known : g.find hi with
    | none =>
      rw [pinAt_of_none known] at highPin
      cases highPin
    | some id =>
      obtain ⟨n, _, _, pin, isMem⟩ := shaped.mem_members there known
      rw [pin] at highPin
      refine (numbered_of_baseNumber numbers).1 _ isMem b highPin (Nat.succ_pos i) a ?_
      rw [Nat.add_sub_cancel, getElem?_existingNodes, here, Option.map_some, Option.join_some]
      exact lowPin
  · intro i i' r register' placed placed' ms run isMem isMem'
    obtain ⟨pre, post, rfl⟩ := append_of_mem isMem
    cases known : g.find r with
    | none =>
      rw [shaped.eq_of_none run known isMem, mem_singleton] at isMem'
      subst isMem'
      have bound := lt_of_getElem? placed'
      by_cases same : i = i'
      · rw [same]
      · rcases Nat.lt_or_gt_of_ne same with earlier | later
        · exact absurd (placed.trans placed'.symm)
            (nodup_iff_getElem?_ne_getElem?.mp distinct i i' earlier bound)
        · exact absurd (placed'.trans placed.symm)
            (nodup_iff_getElem?_ne_getElem?.mp distinct i' i later (lt_of_getElem? placed))
    | some id =>
      cases known' : g.find register' with
      | none =>
        rw [shaped.eq_of_none run known' isMem', mem_singleton] at isMem
        rw [isMem, known'] at known
        cases known
      | some id' =>
        obtain ⟨n, _, _, _, mem⟩ := shaped.mem_members placed known
        obtain ⟨n', _, _, _, mem'⟩ := shaped.mem_members placed' known'
        obtain ⟨pre', post', split⟩ := append_of_mem isMem'
        have sameHead : (g.segment id true).head = (g.segment id' true).head :=
          (shaped.segment_head_eq_iff run (split ▸ run) known known').mpr split
        have start := (spans.covers _ mem).start
        have start' := (spans.covers _ mem').start
        simp only at start start'
        rw [sameHead, start', Option.some_inj] at start
        have begins : g.startOf ⟨i, id, n⟩ = (i : Int) - g.ahead r := (shaped.startOf_eq known).1
        have begins' : g.startOf ⟨i', id', n'⟩ = (i' : Int) - g.ahead register' :=
          (shaped.startOf_eq known').1
        omega
  · intro r isMem register' isMem' bank bank' pinned pinned'
    have one : ∀ r ∈ regs, ∀ bank, g.runBank r = some bank → extent.bank = some bank := by
      intro r isMem bank pinned
      obtain ⟨id, known, found⟩ := Option.bind_eq_some_iff.mp pinned
      obtain ⟨i, placed⟩ := getElem?_of_mem isMem
      obtain ⟨n, _, _, _, mem⟩ := shaped.mem_members placed known
      exact (spans.covers _ mem).bank bank found
    exact Option.some_inj.mp
      ((one r isMem bank pinned).symm.trans (one register' isMem' bank' pinned'))

/-! ### Hardware runs -/

/-- Hardware registers of one kind whose numbers ascend by one. -/
def Ascending (regs : List Register) (first : Register) : Prop :=
  ∀ i r, regs[i]? = some r → r.kind = first.kind ∧ r.number.toNat = first.number.toNat + i

theorem find?_ascends_eq_none :
    ((regs.map register).zipIdx.find? fun (slot, i) => !ascends first i slot) =
      none ↔ Ascending regs first := by
  rw [find?_eq_none]
  constructor
  · intro clear i r placed
    have mem : (register r, i) ∈ (regs.map register).zipIdx := by
      rw [mk_mem_zipIdx_iff_getElem?, getElem?_map, placed]
      rfl
    simpa [ascends] using clear _ mem
  · rintro ascending ⟨slot, i⟩ mem
    rw [mk_mem_zipIdx_iff_getElem?, getElem?_map, Option.map_eq_some_iff] at mem
    obtain ⟨r, placed, rfl⟩ := mem
    obtain ⟨kind, number⟩ := ascending i r placed
    simp [ascends, kind, number]

theorem fitNumbered_eq_ok : g.fitNumbered (regs.map .register) parity = .ok fit ↔
      ∃ first bank, regs.head? = some first ∧ first.hardwareBank = some bank ∧
        Ascending regs first ∧ parity.allows first.number = true ∧ regs.length ≤ g.limit bank ∧
        fit = ⟨(regs.map register).map fun _ => none, parity, bank⟩ := by
  unfold fitNumbered
  cases regs with
  | nil => simp
  | cons first rest =>
    simp only [map_cons, head?_cons]
    cases hardware : first.hardwareBank with
    | none => simp [hardware]
    | some bank =>
      simp only
      rw [← map_cons]
      cases searched : ((first :: rest).map register).zipIdx.find?
          fun (slot, i) => !ascends first i slot with
      | some pair =>
        have broken : ¬ Ascending (first :: rest) first := by
          rw [← find?_ascends_eq_none, searched]
          simp
        simp only [Option.some_inj]
        constructor
        · intro no
          cases no
        · rintro ⟨_, _, rfl, _, ascending, _⟩
          exact absurd ascending broken
      | none =>
        have ascending := find?_ascends_eq_none.mp searched
        simp only [length_map]
        by_cases allowed : parity.allows first.number = true
        · rw [if_neg (by simp [allowed])]
          by_cases long : g.limit bank < (first :: rest).length
          · rw [if_pos long]
            constructor
            · intro no
              cases no
            · rintro ⟨_, bank', rfl', hardware', _, _, short, _⟩
              cases rfl'
              cases hardware.symm.trans hardware'
              omega
          · rw [if_neg long]
            constructor
            · intro same
              cases same
              exact ⟨first, bank, rfl, hardware, ascending, allowed, Nat.le_of_not_lt long, rfl⟩
            · rintro ⟨_, bank', rfl', hardware', _, _, _, rfl⟩
              cases rfl'
              cases hardware.symm.trans hardware'
              rfl
        · rw [if_pos (by simp [allowed])]
          constructor
          · intro no
            cases no
          · rintro ⟨_, _, rfl', _, _, allowed', _⟩
            cases rfl'
            exact absurd allowed' allowed

theorem any_isNumbered_eq_true : (regs.map register).any isNumbered = true ↔
      ∃ r ∈ regs, r.hardwareBank.isSome = true := by
  rw [any_map, any_eq_true]
  rfl

theorem unnumbered_of_not_any (unnumbered : ¬ (regs.map register).any isNumbered = true) :
    ∀ r ∈ regs, r.hardwareBank = none := by
  intro r isMem
  rw [any_isNumbered_eq_true] at unnumbered
  cases missing : r.hardwareBank with
  | none => rfl
  | some bank => exact absurd ⟨r, isMem, by rw [missing]; rfl⟩ unnumbered

/-- The registers of a hardware run all have a hardware number. -/
theorem Ascending.hardware {bank : Bank} (ascending : Ascending regs first)
    (hardware : first.hardwareBank = some bank) : ∀ r ∈ regs, r.hardwareBank = some bank := by
  intro r isMem
  obtain ⟨i, placed⟩ := getElem?_of_mem isMem
  rw [← hardware, Register.hardwareBank, (ascending i r placed).1, Register.hardwareBank]

/-- A hardware run that fits has beginnings that fit. -/
theorem fitNumbered_take (fits : g.fitNumbered (regs.map .register) parity = .ok fit)
    {count : Nat} (positive : 0 < count) :
    ∃ fit', g.fitNumbered ((regs.take count).map .register) parity = .ok fit' := by
  obtain ⟨first, bank, starts, hardware, ascending, allowed, short, _⟩ := fitNumbered_eq_ok.mp fits
  refine ⟨_, fitNumbered_eq_ok.mpr ⟨first, bank, ?_, hardware, ?_, allowed, ?_, rfl⟩⟩
  · rw [head?_take, if_neg (Nat.pos_iff_ne_zero.mp positive)]
    exact starts
  · intro i r placed
    rw [getElem?_take] at placed
    split at placed
    · exact ascending i r placed
    · cases placed
  · rw [length_take]
    omega

end ChainGraph

end RegisterChains

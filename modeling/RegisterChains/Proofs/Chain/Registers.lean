/-
This file reads the constraints off a graph register by register: which register has to
follow which, the parity each one needs, and its pin. Registers without a node have no
constraints, and giving them a node changes none. What linking does is stated in these
terms: the mandatory constraints grow by the new one, and by nothing else.
-/

import RegisterChains.Proofs.Chain.Linking

namespace RegisterChains

namespace ChainGraph

open List

variable {g after : ChainGraph} {mustOnly : Bool} {r lo hi other : Register}
  {id first second : NodeId} {ms post pre : List Register} {n : Node}

/-! ### Constraints between registers -/

/-- One register has to have the number directly after another. -/
def Follows (g : ChainGraph) (mustOnly : Bool) (lo hi : Register) : Prop :=
  ∃ a b, g.find lo = some a ∧ g.find hi = some b ∧ g.Leads mustOnly a b

/-- The parity a register needs. -/
def parityOf (g : ChainGraph) (r : Register) : Parity :=
  ((g.find r).bind g.node?).elim .any (·.parity)

/-- The pin of a register. -/
def pinAt (g : ChainGraph) (r : Register) : Option Pin := (g.find r).bind g.pinOf

theorem Follows.weaken (follows : g.Follows mustOnly lo hi) : g.Follows false lo hi := by
  obtain ⟨a, b, found, found', leads⟩ := follows
  exact ⟨a, b, found, found', leads.weaken⟩

theorem parityOf_of_find (named : g.find r = some id) (found : g.node? id = some n) :
    g.parityOf r = n.parity := by
  rw [parityOf, named, Option.bind_some, found]
  rfl

theorem parityOf_of_none (unknown : g.find r = none) : g.parityOf r = .any := by
  rw [parityOf, unknown]
  rfl

theorem pinAt_of_find (named : g.find r = some id) (found : g.node? id = some n) :
    g.pinAt r = n.pin := by
  rw [pinAt, named, Option.bind_some, pinOf, found, Option.bind_some]

theorem pinAt_of_none (unknown : g.find r = none) : g.pinAt r = none := by
  rw [pinAt, unknown]
  rfl

namespace Shaped

theorem find_inj (shaped : g.Shaped) (found : g.find r = some id)
    (found' : g.find other = some id) : r = other := by
  obtain ⟨n, reached, rfl⟩ := (shaped.registered r id).mp found
  obtain ⟨n', reached', rfl⟩ := (shaped.registered other id).mp found'
  cases reached.symm.trans reached'
  rfl

theorem follows_rightUnique (shaped : g.Shaped) (mustOnly : Bool) :
    Relator.RightUnique (g.Follows mustOnly) := by
  rintro lo hi hi' ⟨a, b, found, named, leads⟩ ⟨a', b', found', named', leads'⟩
  cases found.symm.trans found'
  cases leads_rightUnique mustOnly leads leads'
  exact shaped.find_inj named named'

theorem follows_leftUnique (shaped : g.Shaped) (mustOnly : Bool) :
    Relator.LeftUnique (g.Follows mustOnly) := by
  rintro lo lo' hi ⟨a, b, found, named, leads⟩ ⟨a', b', found', named', leads'⟩
  cases named.symm.trans named'
  cases shaped.leads_leftUnique mustOnly leads leads'
  exact shaped.find_inj found found'

/-- A register has a node if something follows it or it follows something. -/
theorem not_follows_of_none (unknown : g.find r = none) (other : Register) :
    ¬ g.Follows mustOnly r other ∧ ¬ g.Follows mustOnly other r := by
  constructor
  · rintro ⟨a, b, found, _⟩
    rw [unknown] at found
    cases found
  · rintro ⟨a, b, _, found, _⟩
    rw [unknown] at found
    cases found

/-- Two runs that share a register are the same. -/
theorem eq_of_mem {others : List Register} (shaped : g.Shaped)
    (run : IsRun (g.Follows mustOnly) ms) (run' : IsRun (g.Follows mustOnly) others)
    (mem : r ∈ ms) (mem' : r ∈ others) : ms = others :=
  run.eq_of_mem (shaped.follows_leftUnique mustOnly) (shaped.follows_rightUnique mustOnly) run' mem
    mem'

/-- A register without a node is alone. -/
theorem run_of_none (unknown : g.find r = none) : IsRun (g.Follows mustOnly) [r] where
  nonempty := by simp
  linked := isChain_singleton r
  first elem starts one := by
    obtain rfl : r = elem := Option.some_inj.mp starts
    exact (not_follows_of_none unknown one).2
  last elem ends one := by
    obtain rfl : r = elem := Option.some_inj.mp ends
    exact (not_follows_of_none unknown one).1

theorem eq_of_none (shaped : g.Shaped) (run : IsRun (g.Follows mustOnly) ms)
    (unknown : g.find r = none) (mem : r ∈ ms) : ms = [r] :=
  shaped.eq_of_mem run (run_of_none unknown) mem (mem_singleton_self r)

end Shaped

/-! ### Runs of registers -/

/-- The register that a node stands for. -/
def registerOf (g : ChainGraph) (id : NodeId) : Register := (g.node? id).elim (.temp 0) (·.register)

theorem registerOf_eq (found : g.node? id = some n) : g.registerOf id = n.register := by
  rw [registerOf, found]
  rfl

namespace Shaped

section

variable (shaped : g.Shaped)

include shaped

theorem find_registerOf (live : ∃ n, g.node? id = some n) : g.find (g.registerOf id) = some id := by
  obtain ⟨n, found⟩ := live
  rw [registerOf_eq found]
  exact shaped.find_of_node? found

theorem live_of_find (found : g.find r = some id) : ∃ n, g.node? id = some n ∧ n.register = r :=
  (shaped.registered r id).mp found

theorem registerOf_find (found : g.find r = some id) : g.registerOf id = r := by
  obtain ⟨n, reached, named⟩ := shaped.live_of_find found
  rw [registerOf_eq reached, named]

theorem follows_registerOf (leads : g.Leads mustOnly first second) :
    g.Follows mustOnly (g.registerOf first) (g.registerOf second) := by
  obtain ⟨live, successor, reached, _⟩ := shaped.live_of_leads leads
  exact ⟨first, second, shaped.find_registerOf live, shaped.find_registerOf ⟨successor, reached⟩,
    leads⟩

/-- The registers of a run of nodes. -/
theorem run_registers {ms : List NodeId} (run : IsRun (g.Leads mustOnly) ms)
    (live : ∀ id ∈ ms, ∃ n, g.node? id = some n) :
    IsRun (g.Follows mustOnly) (ms.map g.registerOf) where
  nonempty := by simpa using run.nonempty
  linked := by
    rw [isChain_map]
    exact run.linked.imp fun _ _ leads => shaped.follows_registerOf leads
  first elem starts one := by
    rw [head?_map] at starts
    obtain ⟨head, isHead, rfl⟩ := Option.map_eq_some_iff.mp starts
    rintro ⟨first, second, _, named, leads⟩
    rw [shaped.find_registerOf (live head (mem_of_mem_head? isHead))] at named
    cases named
    exact run.first head isHead first leads
  last elem ends one := by
    rw [getLast?_map] at ends
    obtain ⟨final, isFinal, rfl⟩ := Option.map_eq_some_iff.mp ends
    rintro ⟨first, second, named, _, leads⟩
    rw [shaped.find_registerOf (live final (mem_of_mem_getLast? isFinal))] at named
    cases named
    exact run.last final isFinal second leads

/-- Every register is on a run. -/
theorem exists_registerRun (mustOnly : Bool) (r : Register) :
    ∃ pre post, IsRun (g.Follows mustOnly) (pre ++ r :: post) := by
  cases known : g.find r with
  | none => exact ⟨[], [], run_of_none known⟩
  | some id =>
    obtain ⟨n, found, named⟩ := shaped.live_of_find known
    obtain ⟨pre, post, run⟩ := shaped.exists_run mustOnly found
    have regs := shaped.run_registers run fun _ mem =>
      shaped.live_of_mem run found mem_append_cons_self mem
    rw [map_append, map_cons, shaped.registerOf_find known] at regs
    exact ⟨_, _, regs⟩

/-- A run with a register that has a node is the run of that node. -/
theorem nodes_of_run (known : g.find r = some id)
    (run : IsRun (g.Follows mustOnly) (pre ++ r :: post)) :
    ∃ front back, IsRun (g.Leads mustOnly) (front ++ id :: back) ∧
      front.map g.registerOf = pre ∧ back.map g.registerOf = post ∧
        ∀ mem ∈ front ++ id :: back, ∃ n, g.node? mem = some n := by
  obtain ⟨n, found, _⟩ := shaped.live_of_find known
  obtain ⟨front, back, nodes⟩ := shaped.exists_run mustOnly found
  have live : ∀ mem ∈ front ++ id :: back, ∃ n, g.node? mem = some n :=
    fun _ mem => shaped.live_of_mem nodes found mem_append_cons_self mem
  have regs := shaped.run_registers nodes live
  rw [map_append, map_cons, shaped.registerOf_find known] at regs
  have same := shaped.eq_of_mem regs run mem_append_cons_self mem_append_cons_self
  have distinct := run.nodup (shaped.follows_leftUnique mustOnly)
  obtain ⟨sameFront, sameBack⟩ := append_cons_inj distinct same
  exact ⟨front, back, nodes, sameFront, sameBack, live⟩

end

end Shaped

/-- The bank of the first pinned register of a list. -/
def bankAmong (g : ChainGraph) (regs : List Register) : Option Bank :=
  regs.findSome? fun r => (g.pinAt r).map (·.bank)

theorem Shaped.pinAt_registerOf (shaped : g.Shaped) (live : ∃ n, g.node? id = some n) :
    g.pinAt (g.registerOf id) = g.pinOf id := by
  rw [pinAt, shaped.find_registerOf live, Option.bind_some]

theorem Shaped.bankAmong_registerOf (shaped : g.Shaped) {ms : List NodeId}
    (live : ∀ id ∈ ms, ∃ n, g.node? id = some n) :
    g.bankAmong (ms.map g.registerOf) = g.pinnedBankOf ms := by
  unfold bankAmong pinnedBankOf
  rw [findSome?_map]
  induction ms with
  | nil => rfl
  | cons id rest ih =>
    rw [findSome?_cons, findSome?_cons, ih fun other mem => live other (mem_cons_of_mem _ mem)]
    simp only [Function.comp_apply]
    rw [shaped.pinAt_registerOf (live id mem_cons_self)]

/-- What is seen of a run of registers from the node of one of them. -/
theorem Shaped.segment_of_run (shaped : g.Shaped) (known : g.find r = some id)
    (run : IsRun (g.Follows mustOnly) (pre ++ r :: post)) :
    (g.segment id mustOnly).position = pre.length ∧
      (g.segment id mustOnly).length = pre.length + post.length + 1 ∧
      (g.segment id mustOnly).pinnedBank = g.bankAmong (pre ++ r :: post) ∧
      (pre ++ r :: post).head?.bind g.find = some (g.segment id mustOnly).head := by
  obtain ⟨front, back, nodes, rfl, rfl, live⟩ := shaped.nodes_of_run known run
  obtain ⟨n, found, _⟩ := shaped.live_of_find known
  obtain ⟨head, starts, seen⟩ := shaped.segment_eq found nodes
  have named : front.map g.registerOf ++ r :: back.map g.registerOf =
      (front ++ id :: back).map g.registerOf := by
    rw [map_append, map_cons, shaped.registerOf_find known]
  rw [named, shaped.bankAmong_registerOf live, seen, head?_map, starts, Option.map_some,
    Option.bind_some,
    shaped.find_registerOf (live head (mem_of_mem_head? starts))]
  refine ⟨by simp, ?_, rfl, rfl⟩
  simp only [Segment.length, length_append, length_cons, length_map]
  omega

/-! ### Pins and parities when constraints grow -/

/-- Where a register has no node yet, the node that it gets is new. -/
theorem Grows.node?_eq_none (grows : g.Grows after) (shaped : g.Shaped) (shaped' : after.Shaped)
    {r : Register} {id : NodeId} (known : g.find r = none) (known' : after.find r = some id) :
    g.node? id = none := by
  obtain ⟨n', found', named⟩ := shaped'.live_of_find known'
  cases found : g.node? id with
  | none => rfl
  | some n =>
    obtain ⟨n'', found'', named', _⟩ := grows.node id n found
    cases found'.symm.trans found''
    have no := shaped.find_of_node? found
    rw [← named', named, known] at no
    cases no

/-- Registers keep their nodes; without new nodes, no register gets one. -/
theorem Grows.find_eq (grows : g.Grows after) (shaped : g.Shaped) (shaped' : after.Shaped)
    (live : ∀ id, after.node? id = none ↔ g.node? id = none) (r : Register) :
    after.find r = g.find r := by
  cases known : g.find r with
  | some id => exact grows.find shaped shaped' known
  | none =>
    cases known' : after.find r with
    | none => rfl
    | some id =>
      obtain ⟨n', found', _⟩ := shaped'.live_of_find known'
      have missing := (live id).mpr (grows.node?_eq_none shaped shaped' known known')
      cases missing.symm.trans found'

theorem Grows.pinAt (grows : g.Grows after) (shaped : g.Shaped) (shaped' : after.Shaped)
    (r : Register) : after.pinAt r = g.pinAt r := by
  cases known : g.find r with
  | some id =>
    obtain ⟨n, found, _⟩ := shaped.live_of_find known
    obtain ⟨n', found', _, pin, _⟩ := grows.node id n found
    rw [pinAt_of_find known found, pinAt_of_find (grows.find shaped shaped' known) found', pin]
  | none =>
    rw [pinAt_of_none known]
    cases known' : after.find r with
    | none => exact pinAt_of_none known'
    | some id =>
      obtain ⟨n', found', _⟩ := shaped'.live_of_find known'
      rw [pinAt_of_find known' found']
      exact (grows.fresh id n' (grows.node?_eq_none shaped shaped' known known') found').1

theorem Recast.pinAt_cut {cut : List NodeId} (recast : g.Recast after (cutNode cut))
    (r : Register) : after.pinAt r = g.pinAt r := by
  unfold pinAt pinOf
  rw [recast.find]
  cases g.find r with
  | none => rfl
  | some id =>
    rw [Option.bind_some, Option.bind_some, recast.node]
    cases g.node? id <;> rfl

section

variable (grows : g.Grows after) (shaped : g.Shaped) (shaped' : after.Shaped)

include grows shaped shaped'

theorem Grows.bankAmong (regs : List Register) : after.bankAmong regs = g.bankAmong regs := by
  unfold ChainGraph.bankAmong
  congr 1
  funext r
  rw [grows.pinAt shaped shaped']

theorem Grows.parityOf (fixed : g.parityOf r ≠ .any) : after.parityOf r = g.parityOf r := by
  cases known : g.find r with
  | none => exact absurd (parityOf_of_none known) fixed
  | some id =>
    obtain ⟨n, found, _⟩ := shaped.live_of_find known
    obtain ⟨n', found', _, _, _, parity⟩ := grows.node id n found
    rw [parityOf_of_find known found] at fixed ⊢
    rw [parityOf_of_find (grows.find shaped shaped' known) found', parity fixed]

theorem Grows.follows (follows : g.Follows true lo hi) : after.Follows true lo hi := by
  obtain ⟨a, b, found, found', leads⟩ := follows
  exact ⟨a, b, grows.find shaped shaped' found, grows.find shaped shaped' found',
    grows.mandatory _ _ leads⟩

end

/-! ### Parities along a chain of registers -/

theorem Sound.parity_follows (sound : g.Sound) (follows : g.Follows mustOnly lo hi) :
    g.parityOf hi = (g.parityOf lo).complement := by
  obtain ⟨a, b, lowNamed, highNamed, leads⟩ := follows
  obtain ⟨⟨n, found⟩, successor, reached, _⟩ := sound.live_of_leads leads
  rw [parityOf_of_find lowNamed found, parityOf_of_find highNamed reached]
  exact (sound.toAlternating.step leads.weaken found reached).1

/-- Parities of two registers of one chain differ by the parity of their distance. -/
theorem Sound.parity_between (sound : g.Sound) (linked : ms.IsChain (g.Follows mustOnly))
    {i i' : Nat} {register' : Register} (placed : ms[i]? = some r)
    (placed' : ms[i']? = some register') :
    g.parityOf register' = (g.parityOf r).atOffset (i + i') := by
  cases ms with
  | nil => cases placed
  | cons head rest =>
    have fromHead : ∀ (i : Nat) (r : Register),
        (head :: rest)[i]? = some r → g.parityOf r = (g.parityOf head).atOffset i := by
      intro i
      induction i with
      | zero =>
        intro r placed
        cases placed
        rfl
      | succ i ih =>
        intro r placed
        obtain ⟨bound, rfl⟩ := List.getElem?_eq_some_iff.mp placed
        have here : (head :: rest)[i]? = some (head :: rest)[i] := getElem?_eq_getElem (by omega)
        rw [sound.parity_follows (linked.getElem i bound), ih _ here, Parity.atOffset_succ]
    rw [fromHead i r placed, fromHead i' register' placed', Parity.atOffset_atOffset]
    exact Parity.atOffset_congr _ (by omega)

/-! ### Cutting optional links -/

/-- A graph in which optional links may have been cut. -/
structure Trimmed (g after : ChainGraph) : Prop where
  sound : after.Sound
  grows : g.Grows after
  find : ∀ reg, after.find reg = g.find reg
  mandatory : ∀ low high, after.Follows true low high ↔ g.Follows true low high
  follows : ∀ low high, after.Follows false low high → g.Follows false low high
  parity : ∀ reg, after.parityOf reg = g.parityOf reg

/-- The chain of a register has mandatory links only. -/
def Firm (g : ChainGraph) (r : Register) : Prop :=
  ∀ ms, IsRun (g.Follows false) ms → r ∈ ms →
    ∀ lo ∈ ms, ∀ hi, g.Follows false lo hi → g.Follows true lo hi

/-- Where all links are mandatory, the chain is a mandatory run. -/
theorem Firm.run (firm : g.Firm r) (run : IsRun (g.Follows false) ms) (mem : r ∈ ms) :
    IsRun (g.Follows true) ms where
  nonempty := run.nonempty
  linked := run.linked.imp_of_mem_imp fun lo hi isMem _ follows =>
    firm ms run mem lo isMem hi follows
  first elem starts pre follows := run.first elem starts pre follows.weaken
  last elem ends next follows := run.last elem ends next follows.weaken

theorem Sound.trimmed_refl (sound : g.Sound) : g.Trimmed g where
  sound := sound
  grows := Grows.refl g
  find _ := rfl
  mandatory _ _ := Iff.rfl
  follows _ _ follows := follows
  parity _ := rfl

/-- Cutting links leaves a part of the chain of a register. -/
theorem Trimmed.part (trimmed : g.Trimmed after) (sound : g.Sound) {ms' : List Register}
    (run : IsRun (g.Follows false) ms) (run' : IsRun (after.Follows false) ms') (mem : r ∈ ms)
    (mem' : r ∈ ms') : ∀ elem ∈ ms', elem ∈ ms := fun _ =>
  (run.isInfix_of_mem (sound.follows_leftUnique false) (sound.follows_rightUnique false)
    trimmed.follows run' mem mem').mem

theorem Firm.trimmed (firm : g.Firm r) (sound : g.Sound) (trimmed : g.Trimmed after) :
    after.Firm r := by
  intro ms' run' mem' lo mem hi follows
  obtain ⟨pre, post, run⟩ := sound.exists_registerRun false r
  have isMem' := trimmed.part sound run run' mem_append_cons_self mem' lo mem
  exact (trimmed.mandatory lo hi).mpr (firm _ run mem_append_cons_self lo isMem' hi
      (trimmed.follows lo hi follows))

theorem Sound.trimmed_dropOptionalOf (sound : g.Sound) (r : Register) :
    g.Trimmed (g.dropOptionalOf (g.find r)).graph ∧ (g.dropOptionalOf (g.find r)).graph.Firm r := by
  cases known : g.find r with
  | none =>
    refine ⟨sound.trimmed_refl, ?_⟩
    intro ms run mem lo isMem hi follows
    rw [sound.eq_of_none run known mem, mem_singleton] at isMem
    rw [isMem] at follows
    exact absurd follows (Shaped.not_follows_of_none known hi).1
  | some id =>
    obtain ⟨n, found, _⟩ := sound.live_of_find known
    obtain ⟨ms, mem, run⟩ := sound.complete id n found
    obtain ⟨sound', recast⟩ := sound.dropOptional found run mem
    show g.Trimmed (g.dropOptional id).graph ∧ (g.dropOptional id).graph.Firm r
    have trimmed : g.Trimmed (g.dropOptional id).graph := by
      refine ⟨sound', ?_, recast.find, ?_, ?_, ?_⟩
      · refine recast.grows (fun _ _ _ => ⟨rfl, rfl, rfl, fun _ => rfl⟩) fun _ _ leads => ?_
        exact (leads_cut_optional recast).mpr leads
      · intro lo hi
        unfold Follows
        simp only [recast.find, leads_cut_optional recast]
      · rintro lo hi ⟨a, b, named, named', leads⟩
        rw [recast.find] at named named'
        exact ⟨a, b, named, named', (recast.leads_cut.mp leads).1⟩
      · intro other
        cases known' : g.find other with
        | none => rw [parityOf_of_none known', parityOf_of_none (recast.find other ▸ known')]
        | some id' =>
          obtain ⟨n', found', _⟩ := sound.live_of_find known'
          rw [parityOf_of_find known' found',
            parityOf_of_find ((recast.find other).trans known') (recast.some found')]
          rfl
    refine ⟨trimmed, ?_⟩
    intro regs runs mem' lo isMem hi follows
    have live : ∀ id' ∈ ms, ∃ n, g.node? id' = some n := fun _ isMem =>
      sound.live_of_mem run found mem isMem
    have within := trimmed.part sound (sound.run_registers run live) runs
      (mem_map.mpr ⟨id, mem, sound.registerOf_find known⟩) mem' lo isMem
    obtain ⟨first, firstMember, rfl⟩ := mem_map.mp within
    obtain ⟨first', second, named, named', leads⟩ := follows
    refine ⟨first', second, named, named', (leads_cut_optional recast).mpr ?_⟩
    rw [recast.find, sound.find_registerOf (live first firstMember)] at named
    cases named
    obtain ⟨⟨n', found', onward, _⟩, kept⟩ := recast.leads_cut.mp leads
    refine ⟨n', found', onward, fun _ => ?_⟩
    by_contra optional
    rw [Bool.not_eq_false] at optional
    exact kept ((mem_optionalAmong found').mpr ⟨firstMember, optional⟩)

/-- Two registers are on one chain. -/
def Chained (g : ChainGraph) (r other : Register) : Prop :=
  ∃ ms, IsRun (g.Follows false) ms ∧ r ∈ ms ∧ other ∈ ms

theorem Shaped.chained_iff (shaped : g.Shaped) (run : IsRun (g.Follows false) ms)
    (mem : other ∈ ms) : g.Chained r other ↔ r ∈ ms := by
  constructor
  · rintro ⟨others, run', isMem, mem'⟩
    rwa [shaped.eq_of_mem run run' mem mem']
  · exact fun isMem => ⟨ms, run, isMem, mem⟩

/-- A node is on the chain of another one exactly if its register is on that of the other. -/
theorem Shaped.chained_registers (shaped : g.Shaped) {ms : List NodeId}
    (run : IsRun (g.Leads false) ms) {id' : NodeId} (known : g.find r = some id)
    (known' : g.find other = some id') (mem : id ∈ ms) : g.Chained r other ↔ id' ∈ ms := by
  obtain ⟨n, found, _⟩ := shaped.live_of_find known
  have live : ∀ id' ∈ ms, ∃ n, g.node? id' = some n := fun _ isMem =>
    shaped.live_of_mem run found mem isMem
  have regs := shaped.run_registers run live
  have isMem : r ∈ ms.map g.registerOf := mem_map.mpr ⟨id, mem, shaped.registerOf_find known⟩
  constructor
  · rintro ⟨others, run', shared, shared'⟩
    rw [shaped.eq_of_mem run' regs shared isMem] at shared'
    obtain ⟨id'', mem'', named⟩ := mem_map.mp shared'
    rw [← named, shaped.find_registerOf (live id'' mem'')] at known'
    exact Option.some_inj.mp known' ▸ mem''
  · exact fun mem' => ⟨_, regs, isMem, mem_map.mpr ⟨id', mem', shaped.registerOf_find known'⟩⟩

/-- When the optional links of a chain are cut, its mandatory links are left, and all links of
other chains. -/
theorem Sound.follows_dropOptionalOf (sound : g.Sound) (r : Register) :
    (g.dropOptionalOf (g.find r)).graph.Follows false lo hi ↔
      g.Follows false lo hi ∧ (g.Chained r lo → g.Follows true lo hi) := by
  cases known : g.find r with
  | none =>
    refine ⟨fun follows => ⟨follows, ?_⟩, fun both => both.1⟩
    rintro ⟨ms, run, isMem, isMem'⟩
    rw [sound.eq_of_none run known isMem, mem_singleton] at isMem'
    exact absurd (isMem' ▸ follows) (Shaped.not_follows_of_none known hi).1
  | some id =>
    obtain ⟨n, found, _⟩ := sound.live_of_find known
    obtain ⟨ms, mem, run⟩ := sound.complete id n found
    obtain ⟨_, recast⟩ := sound.dropOptional found run mem
    show (g.dropOptional id).graph.Follows false lo hi ↔ _
    constructor
    · rintro ⟨a, b, named, named', leads⟩
      rw [recast.find] at named named'
      obtain ⟨leads, kept⟩ := recast.leads_cut.mp leads
      refine ⟨⟨a, b, named, named', leads⟩, fun chained => ?_⟩
      obtain ⟨n', found', onward, _⟩ := leads
      refine ⟨a, b, named, named', n', found', onward, fun _ => ?_⟩
      by_contra optional
      rw [Bool.not_eq_false] at optional
      exact kept ((mem_optionalAmong found').mpr
        ⟨(sound.chained_registers run known named mem).mp chained, optional⟩)
    · rintro ⟨⟨a, b, named, named', leads⟩, firm⟩
      refine ⟨a, b, (recast.find lo).trans named, (recast.find hi).trans named',
        recast.leads_cut.mpr ⟨leads, fun severed => ?_⟩⟩
      obtain ⟨n', found', _, _⟩ := leads
      obtain ⟨mem', optional⟩ := (mem_optionalAmong found').mp severed
      obtain ⟨first', _, named'', _, n'', found'', _, needed⟩ :=
        firm ((sound.chained_registers run known named mem).mpr mem')
      cases named.symm.trans named''
      cases found'.symm.trans found''
      rw [needed rfl] at optional
      cases optional

/-- Nodes of other chains are left as they are when the optional links of a chain are cut. -/
theorem Sound.node?_dropOptionalOf (sound : g.Sound) (found : g.node? id = some n)
    (apart : ¬ g.Chained r n.register) : (g.dropOptionalOf (g.find r)).graph.node? id = some n := by
  cases known : g.find r with
  | none => exact found
  | some own =>
    obtain ⟨n', found', _⟩ := sound.live_of_find known
    obtain ⟨ms, mem, run⟩ := sound.complete own n' found'
    obtain ⟨_, recast⟩ := sound.dropOptional found' run mem
    have outside : id ∉ ms := fun isMem =>
      apart ((sound.chained_registers run known (sound.find_of_node? found) mem).mpr isMem)
    have uncut : ∀ one ∈ g.optionalAmong ms, one ∈ ms := fun _ isMem => mem_of_mem_filter isMem
    have pre : n.prev.filter (fun prev => decide (prev ∉ g.optionalAmong ms)) = n.prev := by
      cases back : n.prev with
      | none => rfl
      | some prev =>
        have kept : prev ∉ g.optionalAmong ms := by
          intro severed
          obtain ⟨predecessor, reached, onward⟩ := sound.backward _ _ _ found back
          obtain ⟨front, rest, split⟩ := run.split_of_next (leads_rightUnique false)
            (uncut prev severed) (leads_next reached onward)
          exact outside (by simp [split])
        simp [kept]
    show (g.dropOptional own).graph.node? id = some n
    rw [recast.some found, cutNode, pre]
    simp only [if_neg fun severed => outside (uncut id severed)]

/-- Nothing is cut where all links are mandatory. -/
theorem Firm.dropOptionalOf_eq (firm : g.Firm r) (sound : g.Sound) :
    (g.dropOptionalOf (g.find r)).graph = g := by
  cases known : g.find r with
  | none => rfl
  | some id =>
    obtain ⟨n, found, _⟩ := sound.live_of_find known
    obtain ⟨ms, mem, run⟩ := sound.complete id n found
    have live : ∀ id' ∈ ms, ∃ n, g.node? id' = some n := fun _ isMem =>
      sound.live_of_mem run found mem isMem
    have named : r ∈ ms.map g.registerOf := mem_map.mpr ⟨id, mem, sound.registerOf_find known⟩
    have demanded := firm _ (sound.run_registers run live) named
    have none : ms.filter g.optionalAfter = [] := by
      refine filter_eq_nil_iff.mpr fun first isMem optional => ?_
      obtain ⟨n', found'⟩ := live first isMem
      have isOptional : n'.optionalLink = true := by
        simpa [optionalAfter, found'] using optional
      cases onward : n'.next with
      | none =>
        rw [(sound.ended first n' found' onward).1] at isOptional
        cases isOptional
      | some second =>
        have follows := sound.follows_registerOf (leads_next found' onward)
        obtain ⟨first', _, isFirst, _, n'', found'', _, strong⟩ :=
          demanded _ (mem_map.mpr ⟨first, isMem, rfl⟩) _ follows
        rw [sound.find_registerOf (live first isMem)] at isFirst
        cases isFirst
        cases found'.symm.trans found''
        rw [strong rfl] at isOptional
        cases isOptional
    rw [dropOptionalOf, dropOptional, sound.chain_headOf found run mem, none]
    rfl

/-! ### Nodes for registers -/

/-- A graph in which a register has a node, and that has no other constraints. -/
structure Equipped (g after : ChainGraph) (reg : Register) (id : NodeId) : Prop where
  sound : after.Sound
  grows : g.Grows after
  find : ∀ other, after.find other = if other = reg then some id else g.find other
  follows : ∀ mustOnly low high, after.Follows mustOnly low high ↔ g.Follows mustOnly low high
  parity : ∀ other, after.parityOf other = g.parityOf other
  kept : ∀ id node, g.node? id = some node → after.node? id = some node

theorem Sound.equipped_ensure (sound : g.Sound) (r : Register) :
    g.Equipped (g.ensure r).graph r (g.ensure r).result := by
  unfold ensure
  cases known : g.find r with
  | some id =>
    refine ⟨sound, Grows.refl g, fun one => ?_, fun _ _ _ => Iff.rfl, fun _ => rfl,
      fun _ _ found => found⟩
    by_cases same : one = r
    · rw [if_pos same, same]
      exact known
    · rw [if_neg same]
  | none =>
    have joins := sound.joins_addNode r
    have sound' := sound.joins known joins
    have find : ∀ {one id}, g.find one = some id → (g.addNode r).graph.find one = some id := by
      intro one id known'
      rw [joins.find, if_neg, known']
      rintro rfl
      rw [known] at known'
      cases known'
    refine ⟨sound', ⟨joins.limits, ?_, ?_, ?_⟩, joins.find, ?_, ?_, fun _ _ => joins.kept⟩
    · intro id n found
      exact ⟨n, joins.kept found, rfl, rfl, rfl, fun _ => rfl⟩
    · intro id n missing found
      rcases joins.cases found with ⟨_, rfl⟩ | original
      · exact ⟨rfl, rfl⟩
      · rw [missing] at original
        cases original
    · intro a b leads
      exact joins.leads_iff.mpr leads
    · intro mustOnly lo hi
      constructor
      · rintro ⟨a, b, named, named', leads⟩
        have leads' := joins.leads_iff.mp leads
        obtain ⟨live, successor, reached, _⟩ := sound.live_of_leads leads'
        rw [sound'.find_inj named (find (sound.find_registerOf live)),
          sound'.find_inj named' (find (sound.find_registerOf ⟨successor, reached⟩))]
        exact sound.follows_registerOf leads'
      · rintro ⟨a, b, named, named', leads⟩
        exact ⟨a, b, find named, find named', joins.leads_iff.mpr leads⟩
    · intro one
      cases known' : g.find one with
      | some id =>
        obtain ⟨n, found, _⟩ := sound.live_of_find known'
        rw [parityOf_of_find known' found, parityOf_of_find (find known') (joins.kept found)]
      | none =>
        rw [parityOf_of_none known']
        cases known'' : (g.addNode r).graph.find one with
        | none => exact parityOf_of_none known''
        | some id =>
          obtain ⟨n, found, named⟩ := sound'.live_of_find known''
          rw [parityOf_of_find known'' found]
          rcases joins.cases found with ⟨_, rfl⟩ | original
          · rfl
          · rw [← named, sound.find_of_node? original] at known'
            cases known'

theorem Firm.equipped {fresh : Register} (firm : g.Firm r) (equipped : g.Equipped after fresh id) :
    after.Firm r := by
  intro ms run mem lo isMem hi follows
  have same : ∀ lo hi, g.Follows false lo hi ↔ after.Follows false lo hi :=
    fun lo hi => (equipped.follows false lo hi).symm
  exact (equipped.follows true lo hi).mpr
    (firm ms (run.congr (fun _ _ _ => same _ _) fun _ _ _ => same _ _) mem lo isMem hi
      ((same lo hi).mpr follows))

/-! ### Links between registers -/

/-- What linking two registers comes to. -/
structure Ties (g after : ChainGraph) (low high : Register) (mandatory : Bool) : Prop where
  sound : after.Sound
  grows : g.Grows after
  known : ∀ reg, after.find reg ≠ none ↔ g.find reg ≠ none ∨ reg = low ∨ reg = high
  tied : after.Follows false low high
  demands : ∀ first second, after.Follows true first second ↔
    g.Follows true first second ∨ (mandatory = true ∧ first = low ∧ second = high)
  follows : ∀ first second, after.Follows false first second →
    g.Follows false first second ∨ (first = low ∧ second = high)
  /-- A parity is new only on the joined chain, and only if one of the two had one. -/
  parity : ∀ reg, after.parityOf reg ≠ g.parityOf reg →
    (∃ members, IsRun (after.Follows mandatory) members ∧ reg ∈ members ∧ low ∈ members) ∧
      (g.parityOf low ≠ .any ∨ g.parityOf high ≠ .any)

section

variable {must : Bool} (linked : g.Linked after first second must) (sound : g.Sound)

include linked sound

theorem Linked.find (r : Register) : after.find r = g.find r :=
  linked.grows.find_eq sound.toShaped linked.sound.toShaped linked.live r

theorem Linked.follows_iff {source target : Register} (lowNamed : g.find lo = some first)
    (highNamed : g.find hi = some second) :
    after.Follows mustOnly source target ↔ g.Follows mustOnly source target ∨
      (source = lo ∧ target = hi ∧ (mustOnly = true → must = true)) := by
  unfold Follows
  simp only [linked.find sound, linked.leads]
  constructor
  · rintro ⟨one, two, named, named', leads | ⟨rfl, rfl, needed⟩⟩
    · exact .inl ⟨one, two, named, named', leads⟩
    · exact .inr ⟨sound.find_inj named lowNamed, sound.find_inj named' highNamed, needed⟩
  · rintro (⟨one, two, named, named', leads⟩ | ⟨rfl, rfl, needed⟩)
    · exact ⟨one, two, named, named', .inl leads⟩
    · exact ⟨first, second, lowNamed, highNamed, .inr ⟨rfl, rfl, needed⟩⟩

/-- Linking the nodes of two registers, in terms of the registers. -/
theorem Linked.ties (lowNamed : g.find lo = some first) (highNamed : g.find hi = some second)
    (firmLow : must = true → g.Firm lo) (firmHigh : must = true → g.Firm hi) :
    g.Ties after lo hi must := by
  have find := linked.find sound
  have follows : ∀ mustOnly source target,
      after.Follows mustOnly source target ↔ g.Follows mustOnly source target ∨
        (source = lo ∧ target = hi ∧ (mustOnly = true → must = true)) :=
    fun _ _ _ => linked.follows_iff sound lowNamed highNamed
  have firm : must = true → after.Firm lo := by
    intro needed ms run mem source isMem target related
    rcases (follows false source target).mp related with old | ⟨rfl, rfl, _⟩
    · refine (follows true source target).mpr (.inl ?_)
      obtain ⟨pre, post, own⟩ := sound.exists_registerRun false source
      have own_mem : source ∈ pre ++ source :: post := mem_append_cons_self
      by_cases withLow : lo ∈ pre ++ source :: post
      · exact firmLow needed _ own withLow source own_mem target old
      · by_cases withHigh : hi ∈ pre ++ source :: post
        · exact firmHigh needed _ own withHigh source own_mem target old
        · -- A chain with neither of the two is unchanged, so it is not the joined one.
          have unchanged : IsRun (after.Follows false) (pre ++ source :: post) := by
            refine own.congr ?_ ?_
            · intro elem included next
              rw [follows]
              have apart : elem ≠ lo := fun same => withLow (same ▸ included)
              simp [apart]
            · intro elem included previous
              rw [follows]
              have apart : elem ≠ hi := fun same => withHigh (same ▸ included)
              simp [apart]
          have same := linked.sound.eq_of_mem unchanged run own_mem isMem
          exact absurd (same ▸ mem) withLow
    · exact (follows true source target).mpr (.inr ⟨rfl, rfl, fun _ => needed⟩)
  refine ⟨linked.sound, linked.grows, ?_, ?_, ?_, ?_, ?_⟩
  · intro r
    rw [find]
    refine ⟨.inl, ?_⟩
    rintro (known | rfl | rfl)
    · exact known
    · rw [lowNamed]
      exact Option.some_ne_none first
    · rw [highNamed]
      exact Option.some_ne_none second
  · exact (follows false lo hi).mpr (.inr ⟨rfl, rfl, nofun⟩)
  · intro source target
    rw [follows]
    simp only [true_implies]
    tauto
  · intro source target related
    rcases (follows false source target).mp related with old | ⟨isLow, isHigh, _⟩
    · exact .inl old
    · exact .inr ⟨isLow, isHigh⟩
  · intro r differs
    cases known : g.find r with
    | none =>
      rw [parityOf_of_none known, parityOf_of_none ((find r).trans known)] at differs
      exact absurd rfl differs
    | some id =>
      obtain ⟨n, found, _⟩ := sound.live_of_find known
      obtain ⟨n', found', _⟩ := linked.grows.node id n found
      have known' := (find r).trans known
      rw [parityOf_of_find known found, parityOf_of_find known' found'] at differs
      obtain ⟨⟨ms, run, mem, firstMember⟩, source, n'', isEnd, found'', fixed⟩ :=
        linked.parity id n n' found found' differs
      have live : ∀ id ∈ ms, ∃ n, after.node? id = some n := fun _ isMem =>
        linked.sound.live_of_mem run found' mem isMem
      have regs := linked.sound.run_registers run live
      have lowMember : lo ∈ ms.map after.registerOf := mem_map.mpr
        ⟨first, firstMember, linked.sound.registerOf_find ((find lo).trans lowNamed)⟩
      refine ⟨⟨_, ?_, ?_, lowMember⟩, ?_⟩
      · cases must with
        | false => exact regs
        | true => exact (firm rfl).run regs lowMember
      · exact mem_map.mpr ⟨id, mem, linked.sound.registerOf_find known'⟩
      · rcases isEnd with rfl | rfl
        · rw [parityOf_of_find lowNamed found'']
          exact .inl fixed
        · rw [parityOf_of_find highNamed found'']
          exact .inr fixed

end

end ChainGraph

end RegisterChains

/-
This file is about the shape of chain graphs. Links point both ways, every register has at
most one node, the listed heads are the nodes nothing precedes, and every node lies on a
chain that ends. From this follows what the bounded walks compute: the run of a node is
found whole, whichever node of it the walk starts from.
-/

import RegisterChains.Chain.Edit
import RegisterChains.Proofs.Runs
import RegisterChains.Proofs.Stores

namespace RegisterChains

namespace ChainGraph

open List

variable {g after : ChainGraph} {id a b : NodeId} {node : Node} {must : Bool}
  {change : NodeId → Node → Node}

/-! ### Links -/

/-- A walk goes on from one node to another. -/
def Leads (g : ChainGraph) (must : Bool) (a b : NodeId) : Prop :=
  ∃ node, g.node? a = some node ∧ node.next = some b ∧ (must = true → node.optionalLink = false)

theorem node_eq_ok : g.node id = .ok node ↔ g.node? id = some node := Pool.get_eq_ok

theorem leadsOn_eq_true : node.leadsOn must = true ↔
      node.next.isSome = true ∧ (must = true → node.optionalLink = false) := by
  unfold Node.leadsOn
  cases must <;> cases node.optionalLink <;> simp

theorem leads_next (found : g.node? a = some node) (next : node.next = some b) :
    g.Leads false a b := ⟨node, found, next, nofun⟩

theorem Leads.weaken (leads : g.Leads must a b) : g.Leads false a b := by
  obtain ⟨node, found, next, _⟩ := leads
  exact leads_next found next

theorem leads_rightUnique (must : Bool) : Relator.RightUnique (g.Leads must) := by
  rintro a b third ⟨node, found, next, _⟩ ⟨node', found', next', _⟩
  cases found.symm.trans found'
  exact Option.some_inj.mp (next.symm.trans next')

/-! ### The invariant -/

/-- The links of a graph form chains, and its index and its list of heads are right. -/
structure Shaped (g : ChainGraph) : Prop where
  pool : g.nodes.Sound
  registered : ∀ reg id, g.find reg = some id ↔ ∃ node, g.node? id = some node ∧ node.register = reg
  forward : ∀ id node next, g.node? id = some node → node.next = some next →
    ∃ successor, g.node? next = some successor ∧ successor.prev = some id
  backward : ∀ id node prev, g.node? id = some node → node.prev = some prev →
    ∃ predecessor, g.node? prev = some predecessor ∧ predecessor.next = some id
  heads : ∀ id, id ∈ g.heads ↔ ∃ node, g.node? id = some node ∧ node.prev = none
  ended : ∀ id node, g.node? id = some node → node.next = none →
    node.optionalLink = false ∧ node.instructionLinked = false
  complete : ∀ id node, g.node? id = some node →
    ∃ members, id ∈ members ∧ IsRun (g.Leads false) members

/-- Parities alternate along every link, and a parity is mandatory on a whole chain or
nowhere on it. -/
structure Alternating (g : ChainGraph) : Prop where
  steps : ∀ id node next successor, g.node? id = some node → node.next = some next →
    g.node? next = some successor → successor.parity = node.parity.complement ∧
        successor.parityMandatory = node.parityMandatory
  loose : ∀ id node, g.node? id = some node → node.parity = .any → node.parityMandatory = false

/-- A graph whose links and parities are right. -/
structure Sound (g : ChainGraph) : Prop extends g.Shaped, g.Alternating

namespace Shaped

variable {pre : List NodeId} {budget : Nat}

section

variable (shaped : g.Shaped)

include shaped

theorem leads_leftUnique (must : Bool) : Relator.LeftUnique (g.Leads must) := by
  rintro a b third ⟨node, found, next, _⟩ ⟨node', found', next', _⟩
  obtain ⟨successor, reached, prev⟩ := shaped.forward _ _ _ found next
  obtain ⟨successor', reached', prev'⟩ := shaped.forward _ _ _ found' next'
  cases reached.symm.trans reached'
  exact Option.some_inj.mp (prev.symm.trans prev')

/-- A link has a node at either end. -/
theorem live_of_leads (leads : g.Leads must a b) :
    (∃ node, g.node? a = some node) ∧
      ∃ successor, g.node? b = some successor ∧ successor.prev = some a := by
  obtain ⟨node, found, next, _⟩ := leads
  exact ⟨⟨node, found⟩, shaped.forward _ _ _ found next⟩

/-- A run along all links starts at a head. -/
theorem mem_heads_of_run {rest : List NodeId} (run : IsRun (g.Leads false) (id :: rest))
    (found : g.node? id = some node) : id ∈ g.heads := by
  refine (shaped.heads id).mpr ⟨node, found, ?_⟩
  cases back : node.prev with
  | none => rfl
  | some prev =>
    obtain ⟨pre, reached, onward⟩ := shaped.backward _ _ _ found back
    exact absurd (leads_next reached onward) (run.first id rfl prev)

theorem find_of_node? (found : g.node? id = some node) : g.find node.register = some id :=
  (shaped.registered _ _).mpr ⟨node, found, rfl⟩

/-- Every node is on a run, along all links or along the mandatory ones. -/
theorem exists_run (must : Bool) (found : g.node? id = some node) :
    ∃ pre post, IsRun (g.Leads must) (pre ++ id :: post) := by
  obtain ⟨ms, mem, run⟩ := shaped.complete id node found
  obtain ⟨pre, post, rfl⟩ := append_of_mem mem
  obtain ⟨_, front, right, _, _, _, part⟩ :=
    run.exists_part (shaped.leads_leftUnique false) (leads_rightUnique false)
      fun _ _ (leads : g.Leads must _ _) => leads.weaken
  exact ⟨front, right, part⟩

end

section

variable {ms : List NodeId} (shaped : g.Shaped)
  (run : IsRun (g.Leads must) ms) (found : g.node? id = some node)
  (included : id ∈ ms)

include shaped run found included

/-- A run with one node has nodes only. -/
theorem live_of_mem {mem : NodeId} (isMem : mem ∈ ms) : ∃ node, g.node? mem = some node := by
  rcases run.alone_or_related isMem with alone | ⟨one, leads⟩ | ⟨one, leads⟩
  · rw [alone, mem_singleton] at included
    exact ⟨node, included ▸ found⟩
  · exact (shaped.live_of_leads leads).1
  · obtain ⟨successor, reached, _⟩ := (shaped.live_of_leads leads).2
    exact ⟨successor, reached⟩

theorem length_le : ms.length ≤ g.size :=
  shaped.pool.length_le (run.nodup (shaped.leads_leftUnique must)) fun _ mem =>
    shaped.live_of_mem run found included mem

end

/-! ### What walks compute -/

/-- The walk back stops at the first node of a run. -/
theorem backFrom_eq (shaped : g.Shaped) (found : g.node? id = some node)
    (linked : (pre ++ [id]).IsChain (g.Leads must))
    (begins : ∀ elem ∈ (pre ++ [id]).head?, ∀ prev, ¬ g.Leads must prev elem)
    (enough : pre.length < budget) (pos : Nat) : ∃ head, (pre ++ [id]).head? = some head ∧
      g.backFrom must budget id pos = (head, pos + pre.length) := by
  induction pre using reverseRecOn generalizing id node budget pos with
  | nil =>
    obtain ⟨budget, rfl⟩ : ∃ spent, budget = spent + 1 := ⟨budget - 1, by omega⟩
    refine ⟨id, rfl, ?_⟩
    unfold backFrom
    rw [found]
    cases prev : node.prev with
    | none => simp [prev]
    | some previous =>
      obtain ⟨predecessor, reached, next⟩ := shaped.backward _ _ _ found prev
      have stops : predecessor.leadsOn must = false := by
        rw [Bool.eq_false_iff]
        intro leadsOn
        exact begins id rfl previous ⟨predecessor, reached, next, (leadsOn_eq_true.mp leadsOn).2⟩
      simp [prev, reached, stops]
  | append_singleton pre previous ih =>
    obtain ⟨budget, rfl⟩ : ∃ spent, budget = spent + 1 := ⟨budget - 1, by omega⟩
    rw [append_assoc, singleton_append] at linked begins ⊢
    rw [length_append, length_singleton] at enough ⊢
    have leads : g.Leads must previous id := (isChain_append_cons_cons.mp linked).2.1
    obtain ⟨predecessor, reached, next, mandatory⟩ := leads
    obtain ⟨node', found', prev⟩ := shaped.forward _ _ _ reached next
    cases found.symm.trans found'
    have goesOn : predecessor.leadsOn must = true :=
      leadsOn_eq_true.mpr ⟨by rw [next]; rfl, mandatory⟩
    have sameHead : (pre ++ [previous]).head? = (pre ++ [previous, id]).head? := by
      cases pre <;> rfl
    have shorter : (pre ++ [previous]).IsChain (g.Leads must) :=
      (isChain_append_cons_cons.mp linked).1
    have enoughLeft : pre.length < budget := by omega
    obtain ⟨head, starts, walked⟩ := ih reached shorter
      (by rw [sameHead]; exact begins) enoughLeft (pos + 1)
    refine ⟨head, sameHead ▸ starts, ?_⟩
    unfold backFrom
    simp only [found, Option.bind_some, prev, reached, Option.any_some, goesOn, if_true]
    rw [walked]
    congr 1
    omega

/-- The walk on lists the run from a node to its end. -/
theorem membersFrom_eq {rest : List NodeId} (linked : (id :: rest).IsChain (g.Leads must))
    (last : ∀ elem ∈ (id :: rest).getLast?, ∀ next, ¬ g.Leads must elem next)
    (enough : rest.length ≤ budget) : g.membersFrom must budget id = id :: rest := by
  induction rest generalizing id budget with
  | nil =>
    cases budget with
    | zero => rfl
    | succ budget =>
      unfold membersFrom
      cases found : g.node? id with
      | none => rfl
      | some node =>
        cases next : node.next with
        | none => simp only [next]
        | some following =>
          have stops : ¬ node.leadsOn must = true := fun leadsOn =>
            last id rfl following ⟨node, found, next, (leadsOn_eq_true.mp leadsOn).2⟩
          simp only [next]
          rw [if_neg stops]
  | cons following rest ih =>
    obtain ⟨budget, rfl⟩ : ∃ spent, budget = spent + 1 :=
      ⟨budget - 1, by rw [length_cons] at enough; omega⟩
    obtain ⟨node, found, next, mandatory⟩ := linked.rel
    have goesOn : node.leadsOn must = true := leadsOn_eq_true.mpr ⟨by rw [next]; rfl, mandatory⟩
    rw [getLast?_cons_cons] at last
    unfold membersFrom
    simp only [found, next, goesOn, if_true]
    rw [ih linked.of_cons last (Nat.le_of_succ_le_succ enough)]

section

variable (shaped : g.Shaped) (found : g.node? id = some node) {post : List NodeId}

include shaped found

/-- What is seen of a run from one of its nodes. -/
theorem segment_eq (run : IsRun (g.Leads must) (pre ++ id :: post)) :
    ∃ head, (pre ++ id :: post).head? = some head ∧ g.segment id must =
        ⟨head, pre.length, pre ++ id :: post, g.pinnedBankOf (pre ++ id :: post)⟩ := by
  have bound := shaped.length_le run found mem_append_cons_self
  rw [length_append, length_cons] at bound
  have sameHead : (pre ++ [id]).head? = (pre ++ id :: post).head? := by
    cases pre <;> rfl
  have front : (pre ++ [id]).IsChain (g.Leads must) := (isChain_split.mp run.linked).1
  have enough : pre.length < g.size + 1 := by omega
  obtain ⟨head, starts, walked⟩ :=
    shaped.backFrom_eq found front (by rw [sameHead]; exact run.first) enough 0
  rw [sameHead] at starts
  obtain ⟨rest, whole⟩ : ∃ rest, pre ++ id :: post = head :: rest := by
    cases listed : pre ++ id :: post with
    | nil => simp at listed
    | cons first rest =>
      rw [listed] at starts
      cases starts
      exact ⟨rest, rfl⟩
  have linked := run.linked
  have last := run.last
  rw [whole] at linked last
  have short : rest.length ≤ g.size := by
    have counted := congrArg List.length whole
    rw [length_append, length_cons, length_cons] at counted
    omega
  refine ⟨head, starts, ?_⟩
  unfold segment
  rw [walked]
  simp only [Nat.zero_add]
  rw [membersFrom_eq linked last short, ← whole]

/-- The chain from a node on is its run from there. -/
theorem chain_eq (run : IsRun (g.Leads false) (pre ++ id :: post)) : g.chain id = id :: post := by
  have bound := shaped.length_le run found mem_append_cons_self
  rw [length_append, length_cons] at bound
  exact membersFrom_eq (run.drop rfl).1 (run.drop rfl).2 (by omega)

/-- From its first node on, a chain is listed whole. -/
theorem chain_headOf {ms : List NodeId} (run : IsRun (g.Leads false) ms) (mem : id ∈ ms) :
    g.chain (g.headOf id) = ms := by
  obtain ⟨pre, post, rfl⟩ := append_of_mem mem
  obtain ⟨head, starts, seen⟩ := shaped.segment_eq found run
  obtain ⟨first, reached⟩ := shaped.live_of_mem run found mem (mem_of_mem_head? starts)
  rw [headOf, seen]
  cases listed : pre ++ id :: post with
  | nil => simp at listed
  | cons one rest =>
    rw [listed] at starts run
    cases starts
    have whole : IsRun (g.Leads false) ([] ++ head :: rest) := run
    exact shaped.chain_eq reached whole

end

end Shaped

theorem shaped_empty (limits : BankLimits) : (empty limits).Shaped where
  pool := Pool.sound_empty
  registered r id := by simp [find, empty, node?]
  forward id node next found := by simp [empty, node?] at found
  backward id node prev found := by simp [empty, node?] at found
  heads id := by simp [empty, node?]
  ended id node found := by simp [empty, node?] at found
  complete id node found := by simp [empty, node?] at found

theorem sound_empty (limits : BankLimits) : (empty limits).Sound where
  toShaped := shaped_empty limits
  steps id node next successor found := by simp [empty, node?] at found
  loose id node found := by simp [empty, node?] at found

/-! ### Changing nodes where they stand -/

/-- A graph in which every node has been changed by a function of its key, while the index
stays as it is. -/
structure Recast (g after : ChainGraph) (change : NodeId → Node → Node) : Prop where
  pool : after.nodes.Sound
  byRegister : after.byRegister = g.byRegister
  limits : after.limits = g.limits
  node : ∀ id, after.node? id = (g.node? id).map (change id)

namespace Recast

variable {change change' : NodeId → Node → Node}

theorem find (recast : g.Recast after change) (r : Register) : after.find r = g.find r := by
  rw [ChainGraph.find, recast.byRegister, ChainGraph.find]

theorem some (recast : g.Recast after change) (found : g.node? id = some node) :
    after.node? id = some (change id node) := by
  rw [recast.node, found, Option.map_some]

theorem exists_of_some (recast : g.Recast after change) {ch : Node}
    (found : after.node? id = .some ch) :
    ∃ node, g.node? id = .some node ∧ ch = change id node := by
  rw [recast.node] at found
  obtain ⟨node, orig, rfl⟩ := Option.map_eq_some_iff.mp found
  exact ⟨node, orig, rfl⟩

theorem trans {last : ChainGraph} (first : g.Recast after change)
    (second : after.Recast last change') :
    g.Recast last fun id node => change' id (change id node) where
  pool := second.pool
  byRegister := second.byRegister.trans first.byRegister
  limits := second.limits.trans first.limits
  node id := by
    rw [second.node, first.node, Option.map_map]
    rfl

theorem congr (recast : g.Recast after change)
    (same : ∀ id node, g.node? id = .some node → change id node = change' id node) :
    g.Recast after change' where
  pool := recast.pool
  byRegister := recast.byRegister
  limits := recast.limits
  node id := by
    rw [recast.node]
    cases found : g.node? id with
    | none => rfl
    | some node => exact congrArg Option.some (same id node found)

end Recast

theorem recast_refl (shaped : g.nodes.Sound) : g.Recast g fun _ node => node where
  pool := shaped
  byRegister := rfl
  limits := rfl
  node id := by simp

theorem recast_update (pool : g.nodes.Sound) (id : NodeId) (change : Node → Node) :
    g.Recast (g.update id change) fun one node => if one = id then change node else node where
  pool := pool.modify id change
  byRegister := rfl
  limits := rfl
  node one := by
    show (g.nodes.modify id change).get? one = _
    rw [Pool.get?_modify]
    split
    · rfl
    · exact Option.map_id'.symm

/-- Links stay as they are where no node changes its neighbours. -/
theorem Recast.leads_iff (recast : g.Recast after change)
    (next : ∀ id node, (change id node).next = node.next)
    (optional : must = true → ∀ id node, (change id node).optionalLink = node.optionalLink) :
    after.Leads must a b ↔ g.Leads must a b := by
  constructor
  · rintro ⟨ch, found, onward, mandatory⟩
    obtain ⟨node, orig, rfl⟩ := recast.exists_of_some found
    refine ⟨node, orig, (next a node).symm.trans onward, fun only => ?_⟩
    exact (optional only a node).symm.trans (mandatory only)
  · rintro ⟨node, found, onward, mandatory⟩
    refine ⟨_, recast.some found, (next a node).trans onward, fun only => ?_⟩
    exact (optional only a node).trans (mandatory only)

theorem Recast.registered (recast : g.Recast after change) (shaped : g.Shaped)
    (r : ∀ id node, (change id node).register = node.register) (wanted : Register) (id : NodeId) :
    after.find wanted = .some id ↔
      ∃ node, after.node? id = .some node ∧ node.register = wanted := by
  rw [recast.find, shaped.registered]
  constructor
  · rintro ⟨node, found, named⟩
    exact ⟨_, recast.some found, (r id node).trans named⟩
  · rintro ⟨_, found, named⟩
    obtain ⟨node, orig, rfl⟩ := recast.exists_of_some found
    exact ⟨node, orig, (r id node).symm.trans named⟩

/-- Chains stay as they are where no node changes its register or its neighbours. -/
theorem Shaped.recast (shaped : g.Shaped) (recast : g.Recast after change)
    (heads : after.heads = g.heads) (r : ∀ id node, (change id node).register = node.register)
    (prev : ∀ id node, (change id node).prev = node.prev)
    (next : ∀ id node, (change id node).next = node.next)
    (ended : ∀ id node, g.node? id = some node → node.next = none →
      (change id node).optionalLink = false ∧ (change id node).instructionLinked = false) :
    after.Shaped where
  pool := recast.pool
  registered := recast.registered shaped r
  forward id ch following found onward := by
    obtain ⟨node, orig, rfl⟩ := recast.exists_of_some found
    rw [next] at onward
    obtain ⟨successor, reached, back⟩ := shaped.forward _ _ _ orig onward
    exact ⟨_, recast.some reached, (prev following successor).trans back⟩
  backward id ch previous found back := by
    obtain ⟨node, orig, rfl⟩ := recast.exists_of_some found
    rw [prev] at back
    obtain ⟨predecessor, reached, onward⟩ := shaped.backward _ _ _ orig back
    exact ⟨_, recast.some reached, (next previous predecessor).trans onward⟩
  heads id := by
    rw [heads, shaped.heads]
    constructor
    · rintro ⟨node, found, isHead⟩
      exact ⟨_, recast.some found, (prev id node).trans isHead⟩
    · rintro ⟨_, found, isHead⟩
      obtain ⟨node, orig, rfl⟩ := recast.exists_of_some found
      exact ⟨node, orig, (prev id node).symm.trans isHead⟩
  ended id ch found last := by
    obtain ⟨node, orig, rfl⟩ := recast.exists_of_some found
    rw [next] at last
    exact ended id node orig last
  complete id ch found := by
    obtain ⟨node, orig, rfl⟩ := recast.exists_of_some found
    obtain ⟨ms, mem, run⟩ := shaped.complete id node orig
    have same : ∀ a b, after.Leads false a b ↔ g.Leads false a b :=
      fun _ _ => recast.leads_iff next nofun
    exact ⟨ms, mem, run.congr (fun _ _ _ => same _ _) fun _ _ _ => same _ _⟩

/-! ### Constraints that only grow -/

/-- What a change of the constraints keeps: registers and pins, what nodes carry, parities
that are fixed, and mandatory links. A new node carries nothing. -/
structure Grows (g after : ChainGraph) : Prop where
  limits : after.limits = g.limits
  node : ∀ id node, g.node? id = some node → ∃ node', after.node? id = some node' ∧
    node'.register = node.register ∧ node'.pin = node.pin ∧ node'.payload = node.payload ∧
      (node.parity ≠ .any → node'.parity = node.parity)
  fresh : ∀ id node', g.node? id = none → after.node? id = some node' →
    node'.pin = none ∧ node'.payload = .empty
  mandatory : ∀ first second, g.Leads true first second → after.Leads true first second

namespace Grows

theorem refl (g : ChainGraph) : g.Grows g where
  limits := rfl
  node _ node found := ⟨node, found, rfl, rfl, rfl, fun _ => rfl⟩
  fresh id node missing found := by
    rw [missing] at found
    cases found
  mandatory _ _ leads := leads

theorem trans {mid : ChainGraph} (first : g.Grows mid) (second : mid.Grows after) :
    g.Grows after where
  limits := second.limits.trans first.limits
  node id node found := by
    obtain ⟨node', found', r, pin, payload, parity⟩ := first.node id node found
    obtain ⟨node'', found'', register', pin', payload', parity'⟩ := second.node id node' found'
    refine ⟨node'', found'', register'.trans r, pin'.trans pin, payload'.trans payload, ?_⟩
    intro fixed
    rw [parity' (by rw [parity fixed]; exact fixed), parity fixed]
  fresh id node'' missing found'' := by
    cases found' : mid.node? id with
    | none => exact second.fresh id node'' found' found''
    | some node' =>
      obtain ⟨pin, payload⟩ := first.fresh id node' missing found'
      obtain ⟨one, found, _, pin', payload', _⟩ := second.node id node' found'
      cases found''.symm.trans found
      exact ⟨pin'.trans pin, payload'.trans payload⟩
  mandatory _ _ leads := second.mandatory _ _ (first.mandatory _ _ leads)

theorem find (grows : g.Grows after) (shaped : g.Shaped) (shaped' : after.Shaped) {r : Register}
    (found : g.find r = some id) : after.find r = some id := by
  obtain ⟨node, orig, named⟩ := (shaped.registered r id).mp found
  obtain ⟨node', found', register', _⟩ := grows.node id node orig
  exact (shaped'.registered r id).mpr ⟨node', found', register'.trans named⟩

end Grows

theorem Recast.grows (recast : g.Recast after change)
    (kept : ∀ id node, g.node? id = Option.some node →
      (change id node).register = node.register ∧ (change id node).pin = node.pin ∧
        (change id node).payload = node.payload ∧
          (node.parity ≠ .any → (change id node).parity = node.parity))
    (must : ∀ a b, g.Leads true a b → after.Leads true a b) : g.Grows after where
  limits := recast.limits
  node id node found := ⟨_, recast.some found, kept id node found⟩
  fresh id node' missing found := by
    rw [recast.node, missing] at found
    cases found
  mandatory := must

end ChainGraph

end RegisterChains

/-
This file shows that a graph stays in order whatever is asked of it. Registers get nodes and
are released, links are made and cut, parities are demanded and runs are committed; requests
may be refused or stop half way. Afterwards the chains still partition the nodes, so that a
walk along the links from every head ends and meets each node once.
-/

import RegisterChains.Proofs.Numbering

namespace RegisterChains

open ChainGraph

namespace ChainGraph

open List

open Step

variable {g after : ChainGraph} {id : NodeId} {n : Node} {r : Register}

/-! ### Releasing a register -/

/-- A graph that has one node less, which nothing was linked to. -/
structure Loses (g after : ChainGraph) (id : NodeId) (reg : Register) : Prop where
  pool : after.nodes.Sound
  node : ∀ other, after.node? other = if other = id then none else g.node? other
  find : ∀ other, after.find other = if other = reg then none else g.find other
  heads : ∀ other, other ∈ after.heads ↔ other ∈ g.heads ∧ other ≠ id

theorem Shaped.loses_dropNode (shaped : g.Shaped) (id : NodeId) (r : Register) :
    g.Loses (g.dropNode id r) id r where
  pool := shaped.pool.remove id
  node := g.nodes.get?_remove id
  find := g.byRegister.get?_erase r
  heads _ := mem_unmarkHead

namespace Loses

variable {id other : NodeId} {r : Register}

theorem kept (loses : g.Loses after id r) (found : after.node? other = some n) :
    other ≠ id ∧ g.node? other = some n := by
  rw [loses.node] at found
  split at found
  · cases found
  · next ne => exact ⟨ne, found⟩

theorem node_of_ne (loses : g.Loses after id r) (ne : other ≠ id) :
    after.node? other = g.node? other := by
  rw [loses.node, if_neg ne]

theorem leads_iff (loses : g.Loses after id r) {must : Bool} {a b : NodeId} (ne : a ≠ id) :
    after.Leads must a b ↔ g.Leads must a b := by
  unfold Leads
  rw [loses.node_of_ne ne]

end Loses

theorem Sound.loses (sound : g.Sound) (found : g.node? id = some n) (named : n.register = r)
    (isHead : n.prev = none) (last : n.next = none) (loses : g.Loses after id r) : after.Sound := by
  have notNext : ∀ one pre, g.node? one = some pre → pre.next ≠ some id := by
    intro one pre isNode onward
    obtain ⟨successor, reached, back⟩ := sound.forward _ _ _ isNode onward
    cases found.symm.trans reached
    rw [isHead] at back
    cases back
  have notPrev : ∀ one post, g.node? one = some post → post.prev ≠ some id := by
    intro one post isNode back
    obtain ⟨predecessor, reached, onward⟩ := sound.backward _ _ _ isNode back
    cases found.symm.trans reached
    rw [last] at onward
    cases onward
  have unlinked : ∀ next, ¬ g.Leads false id next := by
    rintro next ⟨other, isNode, onward, _⟩
    cases found.symm.trans isNode
    rw [last] at onward
    cases onward
  refine ⟨⟨loses.pool, ?_, ?_, ?_, ?_, ?_, ?_⟩, ?_, ?_⟩
  · intro wanted one
    rw [loses.find, loses.node]
    by_cases released : wanted = r
    · rw [if_pos released]
      refine iff_of_false (by simp) ?_
      rintro ⟨holder, isNode, holds⟩
      split at isNode
      · cases isNode
      · next ne =>
        have known := sound.find_of_node? found
        have known' := sound.find_of_node? isNode
        rw [named] at known
        rw [holds, released, known] at known'
        exact ne (Option.some_inj.mp known').symm
    · rw [if_neg released, sound.registered]
      by_cases gone : one = id
      · rw [if_pos gone]
        refine iff_of_false ?_ (by simp)
        rintro ⟨holder, isNode, holds⟩
        subst gone
        cases found.symm.trans isNode
        exact released (holds.symm.trans named)
      · rw [if_neg gone]
  · intro one pre next isNode onward
    obtain ⟨_, orig⟩ := loses.kept isNode
    obtain ⟨successor, reached, back⟩ := sound.forward _ _ _ orig onward
    have ne : next ≠ id := fun same => notNext one pre orig (same ▸ onward)
    exact ⟨successor, (loses.node_of_ne ne).trans reached, back⟩
  · intro one post prev isNode back
    obtain ⟨_, orig⟩ := loses.kept isNode
    obtain ⟨predecessor, reached, onward⟩ := sound.backward _ _ _ orig back
    have ne : prev ≠ id := fun same => notPrev one post orig (same ▸ back)
    exact ⟨predecessor, (loses.node_of_ne ne).trans reached, onward⟩
  · intro one
    rw [loses.heads, sound.heads, loses.node]
    by_cases gone : one = id
    · simp [gone]
    · simp [gone]
  · intro one holder isNode
    exact sound.ended one holder (loses.kept isNode).2
  · intro one holder isNode
    obtain ⟨ne, orig⟩ := loses.kept isNode
    obtain ⟨ms, inside, run⟩ := sound.complete one holder orig
    have outside : id ∉ ms := by
      intro mem
      rcases run.alone_or_related mem with
        alone | ⟨next, leads⟩ | ⟨prev, pre, isBefore, onward, _⟩
      · rw [alone, mem_singleton] at inside
        exact ne inside
      · exact unlinked next leads
      · exact notNext prev pre isBefore onward
    refine ⟨ms, inside, run.congr ?_ ?_⟩
    · intro elem mem next
      exact loses.leads_iff fun same => outside (same ▸ mem)
    · intro elem mem previous
      by_cases same : previous = id
      · subst same
        refine iff_of_false ?_ (unlinked elem)
        rintro ⟨holder', isNode', _⟩
        exact (loses.kept isNode').1 rfl
      · exact loses.leads_iff same
  · intro one pre next successor isNode onward reached
    exact sound.steps one pre next successor (loses.kept isNode).2 onward (loses.kept reached).2
  · intro one holder isNode
    exact sound.loose one holder (loses.kept isNode).2

theorem Sound.unlink (sound : g.Sound) (id : NodeId) : (g.unlink id).graph.Sound :=
  ⟨sound.toShaped.unlink id, sound.toAlternating.cut (sound.toShaped.recast_unlink id)⟩

theorem unlinkPrev_of_cuts {motive : ChainGraph → Prop} (kept : motive g)
    (cut : ∀ id, motive (g.unlink id).graph) (id : NodeId) : motive (g.unlinkPrev id).graph := by
  unfold unlinkPrev
  split
  · exact kept
  · exact cut _

/-- Once the links on either side of a node are cut, it is alone. -/
theorem Shaped.alone_of_cuts (shaped : g.Shaped) (found : g.node? id = some n) :
    ∃ alone, ((g.unlinkPrev id).graph.unlink id).graph.node? id = some alone ∧
      alone.register = n.register ∧ alone.prev = none ∧ alone.next = none := by
  have cutBefore : (g.unlinkPrev id).graph.Shaped ∧
    ∃ node, (g.unlinkPrev id).graph.node? id = some node ∧
        node.register = n.register ∧ node.prev = none := by
    unfold unlinkPrev
    rw [found, Option.bind_some]
    cases back : n.prev with
    | none => exact ⟨shaped, n, found, rfl, back⟩
    | some prev =>
      refine ⟨shaped.unlink prev, _, (shaped.recast_unlink prev).some found, rfl, ?_⟩
      simp [cutNode, back]
  obtain ⟨shaped', node, found', named, isFirst⟩ := cutBefore
  refine ⟨_, (shaped'.recast_unlink id).some found', named, ?_, ?_⟩
  · simp [cutNode, isFirst]
  · simp [cutNode]

/-- Releasing a register cuts the links on either side of its node and takes the node out, or
nothing changes. -/
theorem Sound.release_leaves (sound : g.Sound) (r : Register) :
    (release r).leaves g = g ∨ ∃ id alone,
      ((g.unlinkPrev id).graph.unlink id).graph.node? id = some alone ∧
      alone.register = r ∧ alone.prev = none ∧ alone.next = none ∧ (release r).leaves g =
        ((g.unlinkPrev id).graph.unlink id).graph.dropNode id r := by
  let reached : ChainGraph → Prop := fun left => left = g ∨ ∃ id alone,
    ((g.unlinkPrev id).graph.unlink id).graph.node? id = some alone ∧
    alone.register = r ∧ alone.prev = none ∧ alone.next = none ∧
    left = ((g.unlinkPrev id).graph.unlink id).graph.dropNode id r
  show reached _
  unfold release
  refine leaves_bind (.inl rfl) fun seen here ran => ?_
  obtain ⟨rfl, rfl⟩ := yields_get.mp ran
  cases known : here.find r with
  | none => exact .inl rfl
  | some id =>
    refine leaves_bind (.inl leaves_lift) fun n mid ran' => ?_
    obtain ⟨isNode, rfl⟩ := yields_lift.mp ran'
    have found := node_eq_ok.mp isNode
    obtain ⟨alone, isAlone, named, isFirst, isLast⟩ := sound.toShaped.alone_of_cuts found
    have isRegister : alone.register = r := by
      obtain ⟨holder, isHolder, holds⟩ := (sound.registered r id).mp known
      cases found.symm.trans isHolder
      exact named.trans holds
    split
    · exact .inl rfl
    · exact .inr ⟨id, alone, isAlone, isRegister, isFirst, isLast, rfl⟩

/-! ### The order of heads -/

/-- The heads are listed in the order of keys, each of them once. -/
def Listed (g : ChainGraph) : Prop :=
  g.heads.Pairwise fun a b => a.index < b.index

theorem pairwise_insertKey {k : NodeId} {heads : List NodeId}
    (ascending : heads.Pairwise fun a b => a.index < b.index) :
    (insertKey k heads).Pairwise fun a b => a.index < b.index := by
  induction heads with
  | nil => exact pairwise_singleton _ _
  | cons head rest ih =>
    obtain ⟨least, others⟩ := pairwise_cons.mp ascending
    unfold insertKey
    split
    · next below =>
      refine pairwise_cons.mpr ⟨fun one mem => ?_, ascending⟩
      rcases mem_cons.mp mem with rfl | inside
      · exact below
      · exact below.trans (least one inside)
    · next notBelow =>
      split
      · exact ascending
      · next ne =>
        refine pairwise_cons.mpr ⟨fun one mem => ?_, ih others⟩
        rcases mem_insertKey.mp mem with rfl | inside
        · have distinct := Key.index_ne ne
          omega
        · exact least one inside

namespace Listed

section

variable (listed : g.Listed)

include listed

theorem unmarkHead (id : NodeId) : (g.unmarkHead id).Listed := List.Pairwise.filter _ listed

/-- Heads stay listed where they are not touched. -/
theorem congr (heads : after.heads = g.heads) : after.Listed := by
  unfold Listed
  rw [heads]
  exact listed

theorem ensure (r : Register) : (g.ensure r).graph.Listed := by
  unfold ChainGraph.ensure
  split
  · exact listed
  · exact pairwise_insertKey listed

theorem unlink (id : NodeId) : (g.unlink id).graph.Listed := by
  unfold ChainGraph.unlink
  split
  · exact listed
  · exact pairwise_insertKey listed

theorem unlinkAll (ids : List NodeId) : (g.unlinkAll ids).graph.Listed := by
  induction ids generalizing g with
  | nil => exact listed
  | cons id rest ih => exact ih (listed.unlink id)

theorem dropOptionalOf (n : Option NodeId) : (g.dropOptionalOf n).graph.Listed := by
  cases n with
  | none => exact listed
  | some id => exact listed.unlinkAll _

end

end Listed

theorem heads_alternate (g : ChainGraph) (base : Parity) (must : Bool) (ms : List NodeId) :
    (g.alternate base must ms).heads = g.heads := by
  unfold alternate
  generalize ms.zipIdx = places
  induction places generalizing g with
  | nil => rfl
  | cons node rest ih =>
    rw [foldl_cons]
    exact ih _

theorem heads_spreadParity (g : ChainGraph) (id : NodeId) :
    (g.spreadParity id).heads = g.heads := by
  unfold spreadParity
  split
  · rfl
  · split
    · rfl
    · exact heads_alternate _ _ _ _

theorem heads_setParity (g : ChainGraph) (id : NodeId) (parity : Parity) (must : Bool) :
    (g.setParity id parity must).2.heads = g.heads := by
  unfold setParity
  split
  · rfl
  · split
    · rfl
    · split
      · rfl
      · exact heads_spreadParity _ id

namespace Listed

section

variable (listed : g.Listed)

include listed

theorem join (a b : NodeId) (must via : Bool) : (g.join a b must via).Listed := by
  refine congr ?_ (heads_spreadParity _ _)
  exact listed.unmarkHead _

theorem connect (lo hi : Register) (a b : Option NodeId) (must via : Bool) :
    (g.connect lo a hi b must via).graph.Listed := by
  have cutFirst : (if must then g.dropOptionalOf a
      else ⟨(), g, []⟩ : Edit Unit).graph.Listed := by
    split
    · exact listed.dropOptionalOf a
    · exact listed
  have cutSecond : ∀ mid : ChainGraph, mid.Listed → (if must then mid.dropOptionalOf b
        else ⟨(), mid, []⟩ : Edit Unit).graph.Listed := by
    intro mid listed'
    split
    · exact listed'.dropOptionalOf b
    · exact listed'
  unfold ChainGraph.connect
  simp only
  exact (((cutSecond _ cutFirst).ensure lo).ensure hi).join _ _ must via

theorem strengthen (id : NodeId) (must via : Bool) : (g.strengthen id must via).graph.Listed := by
  unfold ChainGraph.strengthen
  extract_lets noted
  have kept : noted.Listed := by
    unfold noted
    split
    · exact listed
    · exact listed
  split
  · have hardened : (noted.update id fun n => { n with optionalLink := false }).Listed :=
      kept.congr rfl
    exact hardened.unlinkAll _
  · exact kept

theorem linkNodes (lo hi : Register) (a b : Option NodeId) (must via : Bool) :
    (g.linkNodes lo a hi b must via).graph.Listed := by
  unfold ChainGraph.linkNodes
  extract_lets adjacent
  cases adjacent with
  | some id => exact listed.strengthen id must via
  | none =>
    simp only
    split
    · exact listed.connect lo hi a b must via
    · exact listed

theorem link (lo hi : Register) (must via : Bool) : (g.link lo hi must via).graph.Listed := by
  unfold ChainGraph.link
  split
  · exact listed.linkNodes lo hi _ _ must via
  · exact listed

end

end Listed

/-! ### Nodes that were looked up beforehand -/

/-- A node that passes the check is the one of the register. -/
theorem Shaped.find_of_checkHint (shaped : g.Shaped) {hint : Option NodeId}
    (checked : g.checkHint r (hint <|> g.find r) = .ok ()) : (hint <|> g.find r) = g.find r := by
  cases hint with
  | none => rfl
  | some id =>
    obtain ⟨n, isNode, stands⟩ := except_bind_eq_ok.mp checked
    have found := node_eq_ok.mp isNode
    have named : n.register = r := by
      by_contra ne
      rw [if_pos ne] at stands
      cases stands
    exact ((shaped.registered r id).mpr ⟨n, found, named⟩).symm

/-- A link whose nodes were looked up beforehand is refused, or made like any other. -/
theorem Shaped.linkHinted_leaves (shaped : g.Shaped) (lo : Register) (lowHint : Option NodeId)
    (hi : Register) (highHint : Option NodeId) (must via : Bool) :
    (linkHinted lo lowHint hi highHint must via).leaves g = g ∨
      (linkHinted lo lowHint hi highHint must via).leaves g =
        (g.link lo hi must via).graph := by
  let reached : ChainGraph → Prop := fun left =>
    left = g ∨ left = (g.link lo hi must via).graph
  show reached _
  unfold linkHinted
  split
  · exact .inl rfl
  · next allowed =>
    refine leaves_bind (.inl rfl) fun seen here ran => ?_
    obtain ⟨rfl, rfl⟩ := yields_get.mp ran
    refine leaves_bind (.inl leaves_lift) fun _ now ran => ?_
    obtain ⟨lowChecked, rfl⟩ := yields_lift.mp ran
    refine leaves_bind (.inl leaves_lift) fun _ last ran => ?_
    obtain ⟨highChecked, rfl⟩ := yields_lift.mp ran
    rw [apply_leaves, shaped.find_of_checkHint lowChecked, shaped.find_of_checkHint highChecked]
    have plain : last.link lo hi must via =
        last.linkNodes lo (last.find lo) hi (last.find hi) must via :=
      if_pos (by simpa using allowed)
    exact .inr (by rw [plain])

/-! ### Requests -/

/-- What can be asked of a graph. -/
inductive Request where
  | create (reg : Register)
  | link (first : Register) (firstHint : Option NodeId) (second : Register)
      (secondHint : Option NodeId) (must viaInst : Bool)
  | cutAfter (id : NodeId)
  | cutBefore (id : NodeId)
  | demandParity (id : NodeId) (parity : Parity) (must : Bool)
  | commit (regs : List Register) (parity : Parity) (viaInst : Bool)
  | release (reg : Register)
deriving DecidableEq, Repr

/-- The graph that a request leaves behind, whether it is granted, refused or stops half
way. -/
def Request.perform (g : ChainGraph) : Request → ChainGraph
  | .create r => (ChainGraph.create r).leaves g
  | .link first firstHint second secondHint must via =>
    (ChainGraph.linkHinted first firstHint second secondHint must via).leaves g
  | .cutAfter id => (ChainGraph.cutAfter id).leaves g
  | .cutBefore id => (ChainGraph.cutBefore id).leaves g
  | .demandParity id parity must => (ChainGraph.demandParity id parity must).leaves g
  | .commit regs parity via =>
    (ChainGraph.commit regs parity via).leaves g
  | .release r => (ChainGraph.release r).leaves g

/-- A change of one node, which has to exist, is made or not. -/
theorem leaves_of_node {α : Type} {change : ChainGraph → Edit α} {motive : ChainGraph → Prop}
    (pre : motive g) (post : motive (change g).graph) : motive ((do
      let _ ← (← get).node id
      apply change : Step ChainGraph α).leaves g) := by
  refine leaves_bind pre fun seen here ran => ?_
  obtain ⟨rfl, rfl⟩ := yields_get.mp ran
  refine leaves_bind (by rw [leaves_lift]; exact pre) fun _ now ran => ?_
  obtain ⟨_, rfl⟩ := yields_lift.mp ran
  exact post

/-! ### What every request keeps -/

/-- A property that the changes of a graph keep, from which all requests are made up. -/
structure Upkept (holds : ChainGraph → Prop) : Prop extends Endures holds where
  hinted : ∀ {g} low lowHint high highHint must viaInst, holds g →
    holds ((linkHinted low lowHint high highHint must viaInst).leaves g)
  unlink : ∀ {g} id, holds g → holds (g.unlink id).graph
  release : ∀ {g} reg, holds g → holds ((release reg).leaves g)

namespace Upkept

variable {holds : ChainGraph → Prop}

section

variable (upkept : Upkept holds) (kept : holds g)

include upkept kept

theorem perform (request : Request) : holds (request.perform g) := by
  cases request with
  | create r => exact upkept.toEndures.create kept r
  | link first firstHint second secondHint must via =>
    exact upkept.hinted first firstHint second secondHint must via kept
  | cutAfter id => exact leaves_of_node kept (upkept.unlink id kept)
  | cutBefore id =>
    exact leaves_of_node kept (unlinkPrev_of_cuts kept (fun id => upkept.unlink id kept) id)
  | demandParity id parity must => exact upkept.toEndures.demandParity kept id parity must
  | commit regs parity via => exact upkept.toEndures.commit kept regs parity via
  | release r => exact upkept.release r kept

/-- What each change keeps, requests in a row keep. -/
theorem performAll (requests : List Request) : holds (requests.foldl Request.perform g) := by
  induction requests generalizing g with
  | nil => exact kept
  | cons request rest ih => exact ih (upkept.perform kept request)

end

end Upkept

/-- What a graph keeps when a register gets a node, when registers are linked, when a link is cut,
when parities are settled, and when a node that is alone is dropped, it keeps whatever is asked of
it. -/
theorem upkept_of_changes {holds : ChainGraph → Prop} (sound : ∀ {g}, holds g → g.Sound)
    (ensure : ∀ {g} r, holds g → holds (g.ensure r).graph)
    (link : ∀ {g} lo hi must via, holds g → holds (g.link lo hi must via).graph)
    (unlink : ∀ {g} id, holds g → holds (g.unlink id).graph)
    (setParity : ∀ {g} id parity must, holds g → holds (g.setParity id parity must).2)
    (drop : ∀ {g id alone}, holds g → g.node? id = some alone → alone.prev = none →
      alone.next = none → holds (g.dropNode id alone.register)) : Upkept holds where
  ensure := ensure
  demand lo hi via kept := link lo hi true via kept
  setParity := setParity
  hinted lo lowHint hi highHint must via kept := by
    rcases (sound kept).linkHinted_leaves lo lowHint hi highHint must via with same | linked
    · rw [same]
      exact kept
    · rw [linked]
      exact link lo hi must via kept
  unlink := unlink
  release r kept := by
    rcases (sound kept).release_leaves r with
      same | ⟨id, alone, isAlone, rfl, isFirst, isLast, dropped⟩
    · rw [same]
      exact kept
    · -- both links are cut before the node is dropped
      rw [dropped]
      have cut := unlinkPrev_of_cuts kept (fun id => unlink id kept) id
      exact drop (unlink id cut) isAlone isFirst isLast

theorem Sound.drop {alone : Node} (sound : g.Sound) (isAlone : g.node? id = some alone)
    (isFirst : alone.prev = none) (isLast : alone.next = none) :
    (g.dropNode id alone.register).Sound :=
  sound.loses isAlone rfl isFirst isLast (sound.toShaped.loses_dropNode ..)

theorem upkept_sound : Upkept Sound :=
  upkept_of_changes id (fun r sound => (sound.equipped_ensure r).sound)
    (fun lo hi must via sound => (sound.grows_link lo hi must via).1)
    (fun id sound => sound.unlink id)
    (fun id parity must sound => (sound.settles_setParity id parity must).sound)
    fun sound => sound.drop

/-- What a sound graph keeps at each change, it keeps whatever is asked of it. -/
theorem upkept_of_sound {keeps : ChainGraph → Prop}
    (ensure : ∀ {g} r, g.Sound → keeps g → keeps (g.ensure r).graph)
    (link : ∀ {g} lo hi must via, g.Sound → keeps g → keeps (g.link lo hi must via).graph)
    (unlink : ∀ {g} id, g.Sound → keeps g → keeps (g.unlink id).graph)
    (setParity : ∀ {g} id parity must, g.Sound → keeps g → keeps (g.setParity id parity must).2)
    (drop : ∀ {g id alone}, g.Sound → g.node? id = some alone → alone.prev = none →
      alone.next = none → keeps g → keeps (g.dropNode id alone.register)) :
    Upkept fun g => g.Sound ∧ keeps g :=
  upkept_of_changes (·.1)
    (fun r kept => ⟨upkept_sound.ensure r kept.1, ensure r kept.1 kept.2⟩)
    (fun lo hi must via kept =>
      ⟨(kept.1.grows_link lo hi must via).1, link lo hi must via kept.1 kept.2⟩)
    (fun id kept => ⟨kept.1.unlink id, unlink id kept.1 kept.2⟩)
    (fun id parity must kept =>
      ⟨upkept_sound.setParity id parity must kept.1, setParity id parity must kept.1 kept.2⟩)
    fun kept isAlone isFirst isLast =>
      ⟨kept.1.drop isAlone isFirst isLast, drop kept.1 isAlone isFirst isLast kept.2⟩

theorem upkept_listed : Upkept fun g => g.Sound ∧ g.Listed :=
  upkept_of_sound (fun r _ listed => listed.ensure r)
    (fun lo hi must via _ listed => listed.link lo hi must via)
    (fun id _ listed => listed.unlink id)
    (fun id parity must _ listed => listed.congr (heads_setParity _ id parity must))
    fun _ _ _ _ listed => listed.unmarkHead _

/-! ### Graphs in order -/

/-- What holds of the nodes, the links, the heads and the parities of a graph at any time. -/
structure InOrder (g : ChainGraph) : Prop where
  /-- The index holds the register of each node, and one node for it. -/
  index : ∀ reg id, g.find reg = some id ↔ ∃ node, g.node? id = some node ∧ node.register = reg
  /-- Links point both ways, and there is a node at either end. -/
  links : ∀ first second, (∃ node, g.node? first = some node ∧ node.next = some second) ↔
      ∃ node, g.node? second = some node ∧ node.prev = some first
  /-- The heads are the nodes that nothing precedes. -/
  heads : ∀ id, id ∈ g.heads ↔ ∃ node, g.node? id = some node ∧ node.prev = none
  /-- The walk from a head follows the links and ends at a node without a successor. -/
  walks : ∀ head ∈ g.heads, IsRun (g.Leads false) (g.chain head)
  /-- The walks from all heads meet every node. -/
  covers : ∀ id, id ∈ g.heads.flatMap g.chain ↔ ∃ node, g.node? id = some node
  /-- They meet no node twice. -/
  once : (g.heads.flatMap g.chain).Nodup
  /-- The parities of a chain alternate, or there are none, and they are mandatory everywhere
  or nowhere. -/
  parities : ∀ head ∈ g.heads, ∃ (base : Parity) (must : Bool), ∀ index id,
    (g.chain head)[index]? = some id → ∃ node, g.node? id = some node ∧
      node.parity = base.atOffset index ∧ node.parityMandatory = must
  /-- What is noted about a link is noted where there is one. -/
  flags : ∀ id node, g.node? id = some node →
    node.optionalLink = true ∨ node.instructionLinked = true → ∃ next, node.next = some next

theorem Sound.mem_walks (sound : g.Sound) (id : NodeId) :
    id ∈ g.heads.flatMap g.chain ↔ ∃ n, g.node? id = some n := by
  rw [mem_flatMap]
  constructor
  · rintro ⟨head, isHead, inside⟩
    obtain ⟨rest, listed, run⟩ := sound.run_of_head isHead
    obtain ⟨n, found, _⟩ := (sound.heads head).mp isHead
    rw [listed] at inside
    exact sound.live_of_mem run found mem_cons_self inside
  · rintro ⟨n, found⟩
    obtain ⟨ms, inside, run⟩ := sound.complete id n found
    obtain ⟨head, rest, rfl⟩ := exists_cons_of_ne_nil run.nonempty
    obtain ⟨node, isFirst⟩ := sound.live_of_mem run found inside mem_cons_self
    have whole : IsRun (g.Leads false) ([] ++ head :: rest) := run
    exact ⟨head, sound.mem_heads_of_run run isFirst, (sound.chain_eq isFirst whole).symm ▸ inside⟩

theorem Sound.nodup_walks (sound : g.Sound) (listed : g.Listed) :
    (g.heads.flatMap g.chain).Nodup := by
  rw [nodup_flatMap]
  refine ⟨fun head isHead => ?_, ?_⟩
  · obtain ⟨rest, isChain, run⟩ := sound.run_of_head isHead
    rw [isChain]
    exact run.nodup (sound.leads_leftUnique false)
  · refine listed.imp_of_mem fun {a b} isHead isHead' below id inside inside' => ?_
    obtain ⟨rest, isChain, run⟩ := sound.run_of_head isHead
    obtain ⟨rest', isChain', run'⟩ := sound.run_of_head isHead'
    rw [isChain] at inside
    rw [isChain'] at inside'
    have same := run.eq_of_mem (sound.leads_leftUnique false) (leads_rightUnique false) run'
      inside inside'
    obtain ⟨rfl, _⟩ := List.cons.inj same
    exact Nat.lt_irrefl _ below

theorem Sound.inOrder (sound : g.Sound) (listed : g.Listed) : g.InOrder where
  index := sound.registered
  links a b := by
    constructor
    · rintro ⟨n, found, onward⟩
      exact sound.forward a n b found onward
    · rintro ⟨n, found, back⟩
      exact sound.backward b n a found back
  heads := sound.heads
  walks head isHead := by
    obtain ⟨rest, isChain, run⟩ := sound.run_of_head isHead
    rw [isChain]
    exact run
  covers := sound.mem_walks
  once := sound.nodup_walks listed
  parities head isHead := by
    obtain ⟨rest, isChain, run⟩ := sound.run_of_head isHead
    obtain ⟨node, found, _⟩ := (sound.heads head).mp isHead
    refine ⟨node.parity, node.parityMandatory, fun i id placed => ?_⟩
    rw [isChain] at placed
    obtain ⟨n, isNode⟩ := sound.live_of_mem run found mem_cons_self (mem_of_getElem? placed)
    exact ⟨n, isNode, sound.parity_at run.linked found placed isNode⟩
  flags id n found noted := by
    cases onward : n.next with
    | some next => exact ⟨next, rfl⟩
    | none =>
      obtain ⟨optional, linked⟩ := sound.ended id n found onward
      rw [optional, linked] at noted
      simp at noted

/-- Whatever is asked of a graph that starts out empty, it stays in order. -/
theorem inOrder_requests (limits : BankLimits) (requests : List Request) :
    (requests.foldl Request.perform (empty limits)).InOrder := by
  obtain ⟨sound, listed⟩ :=
    upkept_listed.performAll ⟨sound_empty limits, List.Pairwise.nil⟩ requests
  exact sound.inOrder listed

end ChainGraph

end RegisterChains

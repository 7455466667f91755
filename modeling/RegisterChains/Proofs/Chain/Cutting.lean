/-
This file says what becomes of the chains when links are cut and when a register gets a
node. Cutting links leaves the pieces of the old chains, with every other link as it was.
Cutting the optional links of a chain leaves its mandatory runs.
-/

import RegisterChains.Proofs.Chain.Structure

namespace RegisterChains

namespace ChainGraph

open List

variable {g after : ChainGraph} {id a b k : NodeId} {ms : List NodeId} {n : Node} {mustOnly : Bool}
  {r : Register}

/-! ### Heads -/

theorem mem_insertKey {heads : List NodeId} : id ∈ insertKey k heads ↔ id = k ∨ id ∈ heads := by
  induction heads with
  | nil => simp [insertKey]
  | cons head rest ih =>
    unfold insertKey
    split
    · exact mem_cons
    · split
      · next same =>
        rw [same, mem_cons]
        tauto
      · rw [mem_cons, mem_cons, ih]
        tauto

theorem mem_unmarkHead : id ∈ (g.unmarkHead k).heads ↔ id ∈ g.heads ∧ id ≠ k := by
  rw [unmarkHead, mem_filter, decide_eq_true_iff]

/-! ### Cutting links -/

/-- A node after the links behind some nodes have been cut. -/
def cutNode (cut : List NodeId) (id : NodeId) (n : Node) : Node :=
  { n with
    prev := n.prev.filter fun prev => decide (prev ∉ cut)
    next := if id ∈ cut then none else n.next
    optionalLink := if id ∈ cut then false else n.optionalLink
    instructionLinked := if id ∈ cut then false else n.instructionLinked }

theorem cutNode_nil (id : NodeId) (n : Node) : cutNode [] id n = n := by
  have kept : n.prev.filter (fun prev => decide (prev ∉ [])) = n.prev := by
    cases n.prev <;> simp
  unfold cutNode
  rw [kept]
  simp

theorem cutNode_cutNode (first : NodeId) (rest : List NodeId) (id : NodeId) (n : Node) :
    cutNode rest id (cutNode [first] id n) = cutNode (first :: rest) id n := by
  unfold cutNode
  simp only [mem_cons, Option.filter_filter, Node.mk.injEq, true_and, and_true]
  refine ⟨?_, ?_, ?_, ?_⟩
  · congr 1
    funext prev
    by_cases one : prev = first <;> simp [one]
  all_goals by_cases one : id = first <;> simp [one]

theorem Recast.leads_cut {cut : List NodeId} (recast : g.Recast after (cutNode cut)) :
    after.Leads mustOnly a b ↔ g.Leads mustOnly a b ∧ a ∉ cut := by
  constructor
  · rintro ⟨ch, found, onward, must⟩
    obtain ⟨n, original, rfl⟩ := recast.exists_of_some found
    by_cases severed : a ∈ cut
    · simp [cutNode, severed] at onward
    · simp only [cutNode, if_neg severed] at onward must
      exact ⟨⟨n, original, onward, must⟩, severed⟩
  · rintro ⟨⟨n, found, onward, must⟩, severed⟩
    refine ⟨_, recast.some found, ?_, ?_⟩
    · simp only [cutNode, if_neg severed]
      exact onward
    · simp only [cutNode, if_neg severed]
      exact must

theorem Shaped.cut (shaped : g.Shaped) {cut : List NodeId} (recast : g.Recast after (cutNode cut))
    (heads : ∀ id, id ∈ after.heads ↔ ∃ n, after.node? id = some n ∧ n.prev = none) :
    after.Shaped where
  pool := recast.pool
  registered := recast.registered shaped fun _ _ => rfl
  forward id ch following found onward := by
    obtain ⟨n, original, rfl⟩ := recast.exists_of_some found
    by_cases severed : id ∈ cut
    · simp [cutNode, severed] at onward
    · simp only [cutNode, if_neg severed] at onward
      obtain ⟨successor, reached, back⟩ := shaped.forward _ _ _ original onward
      refine ⟨_, recast.some reached, ?_⟩
      simp [cutNode, back, severed]
  backward id ch previous found back := by
    obtain ⟨n, original, rfl⟩ := recast.exists_of_some found
    obtain ⟨back, kept⟩ := Option.filter_eq_some_iff.mp back
    obtain ⟨predecessor, reached, onward⟩ := shaped.backward _ _ _ original back
    refine ⟨_, recast.some reached, ?_⟩
    rw [cutNode, if_neg (of_decide_eq_true kept)]
    exact onward
  heads := heads
  ended id ch found last := by
    obtain ⟨n, original, rfl⟩ := recast.exists_of_some found
    by_cases severed : id ∈ cut
    · simp [cutNode, severed]
    · simp only [cutNode, if_neg severed] at last ⊢
      exact shaped.ended id n original last
  complete id ch found := by
    obtain ⟨n, original, rfl⟩ := recast.exists_of_some found
    obtain ⟨pre, post, run⟩ := shaped.exists_run false original
    obtain ⟨_, front, right, _, _, _, part⟩ :=
      run.exists_part (shaped.leads_leftUnique false) (leads_rightUnique false)
        fun _ _ leads => (recast.leads_cut.mp leads).1
    exact ⟨_, mem_append_cons_self, part⟩

theorem Alternating.cut (alternating : g.Alternating) {cut : List NodeId}
    (recast : g.Recast after (cutNode cut)) : after.Alternating where
  steps id ch following ch' found onward found' := by
    obtain ⟨n, original, rfl⟩ := recast.exists_of_some found
    obtain ⟨successor, original', rfl⟩ := recast.exists_of_some found'
    by_cases severed : id ∈ cut
    · simp [cutNode, severed] at onward
    · simp only [cutNode, if_neg severed] at onward
      exact alternating.steps id n following successor original onward original'
  loose id ch found free := by
    obtain ⟨n, original, rfl⟩ := recast.exists_of_some found
    exact alternating.loose id n original free

section

variable (shaped : g.Shaped)

include shaped

/-- Cutting the link behind a node changes that node and the one behind it. -/
theorem Shaped.recast_unlink (id : NodeId) : g.Recast (g.unlink id).graph (cutNode [id]) := by
  unfold unlink
  cases onward : (g.node? id).bind (·.next) with
  | none =>
    refine (recast_refl shaped.pool).congr fun other n found => ?_
    have apart : n.prev.filter (fun prev => decide (prev ∉ [id])) = n.prev := by
      cases back : n.prev with
      | none => rfl
      | some prev =>
        obtain ⟨predecessor, reached, next⟩ := shaped.backward _ _ _ found back
        have distinct : prev ≠ id := by
          rintro rfl
          rw [reached, Option.bind_some, next] at onward
          cases onward
        simp [distinct]
    by_cases same : other = id
    · subst same
      rw [found, Option.bind_some] at onward
      obtain ⟨optional, inst⟩ := shaped.ended _ _ found onward
      unfold cutNode
      rw [apart]
      simp only [mem_singleton, if_true]
      rw [← onward]
      nth_rewrite 1 [← optional]
      rw [← inst]
    · unfold cutNode
      rw [apart]
      simp [same]
  | some next =>
    obtain ⟨n, found, following⟩ := Option.bind_eq_some_iff.mp onward
    obtain ⟨successor, reached, back⟩ := shaped.forward _ _ _ found following
    have one := recast_update shaped.pool id fun n =>
      { n with next := none, optionalLink := false, instructionLinked := false }
    have two := recast_update one.pool next fun n => { n with prev := none }
    have both := one.trans two
    refine ⟨both.pool, both.byRegister, both.limits, ?_⟩
    refine (both.congr fun other n' found' => ?_).node
    have names : other = next ↔ n'.prev = some id := by
      constructor
      · rintro rfl
        cases found'.symm.trans reached
        exact back
      · intro back'
        obtain ⟨predecessor, reached', next'⟩ := shaped.backward _ _ _ found' back'
        cases found.symm.trans reached'
        exact Option.some_inj.mp (next'.symm.trans following)
    have cutPrev : n'.prev.filter (fun prev => decide (prev ∉ [id])) =
        if other = next then none else n'.prev := by
      split
      · next same =>
        rw [names.mp same]
        simp
      · next distinct =>
        cases back' : n'.prev with
        | none => rfl
        | some prev =>
          have apart : prev ≠ id := fun same => distinct (names.mpr (same ▸ back'))
          simp [apart]
    unfold cutNode
    rw [cutPrev]
    by_cases same : other = id <;> by_cases same' : other = next
    · simp only [mem_singleton, if_pos same, if_pos same']
    · simp only [mem_singleton, if_pos same, if_neg same']
    · simp only [mem_singleton, if_neg same, if_pos same']
    · simp only [mem_singleton, if_neg same, if_neg same']

theorem Shaped.mem_heads_unlink (id other : NodeId) :
    other ∈ (g.unlink id).graph.heads ↔ ∃ n, (g.unlink id).graph.node? other = some n ∧
    n.prev = none := by
  have recast := shaped.recast_unlink id
  have listed : other ∈ (g.unlink id).graph.heads ↔
      (g.node? id).bind (·.next) = some other ∨ other ∈ g.heads := by
    unfold unlink
    cases onward : (g.node? id).bind (·.next) with
    | none => simp
    | some next =>
      rw [Option.some_inj, @eq_comm _ next other]
      exact mem_insertKey
  rw [listed, shaped.heads]
  constructor
  · rintro (onward | ⟨n, found, isHead⟩)
    · obtain ⟨n, found, next⟩ := Option.bind_eq_some_iff.mp onward
      obtain ⟨successor, reached, back⟩ := shaped.forward _ _ _ found next
      refine ⟨_, recast.some reached, ?_⟩
      simp [cutNode, back]
    · refine ⟨_, recast.some found, ?_⟩
      simp [cutNode, isHead]
  · rintro ⟨ch, found, isHead⟩
    obtain ⟨n, original, rfl⟩ := recast.exists_of_some found
    cases back : n.prev with
    | none => exact .inr ⟨n, original, back⟩
    | some prev =>
      have severed : prev = id := by
        by_contra distinct
        simp [cutNode, back, distinct] at isHead
      subst severed
      obtain ⟨predecessor, reached, next⟩ := shaped.backward _ _ _ original back
      refine .inl ?_
      rw [reached]
      exact next

theorem Shaped.unlink (id : NodeId) : (g.unlink id).graph.Shaped :=
  shaped.cut (shaped.recast_unlink id) (shaped.mem_heads_unlink id)

theorem Shaped.unlinkAll (cut : List NodeId) : (g.unlinkAll cut).graph.Shaped ∧
      g.Recast (g.unlinkAll cut).graph (cutNode cut) := by
  induction cut generalizing g with
  | nil =>
    refine ⟨shaped, (recast_refl shaped.pool).congr fun id n _ => ?_⟩
    exact (cutNode_nil id n).symm
  | cons id rest ih =>
    obtain ⟨left, recast⟩ := ih (shaped.unlink id)
    refine ⟨left, ((shaped.recast_unlink id).trans recast).congr fun one n _ => ?_⟩
    exact cutNode_cutNode id rest one n

end

/-- The nodes of a chain behind which there is an optional link. -/
def optionalAmong (g : ChainGraph) (ms : List NodeId) : List NodeId :=
  ms.filter g.optionalAfter

theorem mem_optionalAmong (found : g.node? id = some n) :
    id ∈ g.optionalAmong ms ↔ id ∈ ms ∧ n.optionalLink = true := by
  rw [optionalAmong, mem_filter, optionalAfter, found, Option.any_some]

/-- Cutting the optional links of a chain leaves everything else as it was. -/
theorem Sound.dropOptional (sound : g.Sound) (found : g.node? id = some n)
    (run : IsRun (g.Leads false) ms) (mem : id ∈ ms) : (g.dropOptional id).graph.Sound ∧
      g.Recast (g.dropOptional id).graph (cutNode (g.optionalAmong ms)) := by
  unfold ChainGraph.dropOptional
  rw [sound.toShaped.chain_headOf found run mem]
  obtain ⟨shaped, recast⟩ := sound.toShaped.unlinkAll (g.optionalAmong ms)
  exact ⟨⟨shaped, sound.toAlternating.cut recast⟩, recast⟩

/-- A mandatory link is not among those that are cut. -/
theorem leads_cut_optional (recast : g.Recast after (cutNode (g.optionalAmong ms))) :
    after.Leads true a b ↔ g.Leads true a b := by
  rw [recast.leads_cut]
  refine ⟨fun both => both.1, fun leads => ⟨leads, fun severed => ?_⟩⟩
  obtain ⟨n, found, _, must⟩ := leads
  have optional := ((mem_optionalAmong found).mp severed).2
  rw [must rfl] at optional
  cases optional

/-! ### Nodes for registers -/

/-- A graph that has one node more, which nothing is linked to. -/
structure Joins (g after : ChainGraph) (id : NodeId) (reg : Register) : Prop where
  pool : after.nodes.Sound
  vacant : g.node? id = none
  node : ∀ other, after.node? other =
    if other = id then some (.unconstrained reg) else g.node? other
  find : ∀ other, after.find other = if other = reg then some id else g.find other
  heads : ∀ other, other ∈ after.heads ↔ other = id ∨ other ∈ g.heads
  limits : after.limits = g.limits

theorem Shaped.joins_addNode (shaped : g.Shaped) (r : Register) :
    g.Joins (g.addNode r).graph (g.addNode r).result r := by
  have k : (g.addNode r).result = g.nodes.nextKey := Pool.insert_fst _ _
  have insertedKey : (g.nodes.insert (.unconstrained r)).1 = g.nodes.nextKey :=
    Pool.insert_fst _ _
  rw [k]
  refine ⟨shaped.pool.insert _, shaped.pool.get?_nextKey, ?_, ?_, ?_, rfl⟩
  · exact shaped.pool.get?_insert (.unconstrained r)
  · intro one
    rw [← insertedKey]
    exact Assoc.get?_insert _ _ _ _
  · intro one
    rw [← insertedKey]
    exact mem_insertKey

namespace Joins

variable {id other : NodeId} {r : Register}

theorem kept (joins : g.Joins after id r) (found : g.node? other = some n) :
    after.node? other = some n := by
  rw [joins.node, if_neg, found]
  rintro rfl
  rw [joins.vacant] at found
  cases found

theorem cases (joins : g.Joins after id r) (found : after.node? other = some n) :
    (other = id ∧ n = .unconstrained r) ∨ g.node? other = some n := by
  rw [joins.node] at found
  split at found
  · next same => exact .inl ⟨same, (Option.some_inj.mp found).symm⟩
  · exact .inr found

theorem leads_iff (joins : g.Joins after id r) :
    after.Leads mustOnly a b ↔ g.Leads mustOnly a b := by
  constructor
  · rintro ⟨n, found, onward, must⟩
    rcases joins.cases found with ⟨_, rfl⟩ | original
    · cases onward
    · exact ⟨n, original, onward, must⟩
  · rintro ⟨n, found, onward, must⟩
    exact ⟨n, joins.kept found, onward, must⟩

end Joins

theorem Shaped.joins (shaped : g.Shaped) (unknown : g.find r = none) (joins : g.Joins after id r) :
    after.Shaped where
  pool := joins.pool
  registered wanted one := by
    rw [joins.find]
    by_cases same : wanted = r
    · subst same
      rw [if_pos rfl, Option.some_inj]
      constructor
      · rintro rfl
        exact ⟨.unconstrained wanted, by rw [joins.node, if_pos rfl], rfl⟩
      · rintro ⟨n, found, named⟩
        rcases joins.cases found with ⟨rfl, _⟩ | original
        · rfl
        · rw [(shaped.registered wanted one).mpr ⟨n, original, named⟩] at unknown
          cases unknown
    · rw [if_neg same, shaped.registered]
      constructor
      · rintro ⟨n, found, named⟩
        exact ⟨n, joins.kept found, named⟩
      · rintro ⟨n, found, named⟩
        rcases joins.cases found with ⟨_, rfl⟩ | original
        · exact absurd named.symm same
        · exact ⟨n, original, named⟩
  forward one n next found onward := by
    rcases joins.cases found with ⟨_, rfl⟩ | original
    · cases onward
    · obtain ⟨successor, reached, back⟩ := shaped.forward _ _ _ original onward
      exact ⟨successor, joins.kept reached, back⟩
  backward one n prev found back := by
    rcases joins.cases found with ⟨_, rfl⟩ | original
    · cases back
    · obtain ⟨predecessor, reached, onward⟩ := shaped.backward _ _ _ original back
      exact ⟨predecessor, joins.kept reached, onward⟩
  heads one := by
    rw [joins.heads, shaped.heads]
    constructor
    · rintro (rfl | ⟨n, found, isHead⟩)
      · exact ⟨.unconstrained r, by rw [joins.node, if_pos rfl], rfl⟩
      · exact ⟨n, joins.kept found, isHead⟩
    · rintro ⟨n, found, isHead⟩
      rcases joins.cases found with ⟨same, _⟩ | original
      · exact .inl same
      · exact .inr ⟨n, original, isHead⟩
  ended one n found last := by
    rcases joins.cases found with ⟨_, rfl⟩ | original
    · exact ⟨rfl, rfl⟩
    · exact shaped.ended one n original last
  complete one n found := by
    rcases joins.cases found with ⟨rfl, _⟩ | original
    · refine ⟨[one], mem_singleton_self one, by simp, isChain_singleton one, ?_, ?_⟩
      · rintro elem starts prev leads
        cases starts
        obtain ⟨_, successor, reached, _⟩ := shaped.live_of_leads (joins.leads_iff.mp leads)
        rw [joins.vacant] at reached
        cases reached
      · rintro elem ends next leads
        obtain rfl : one = elem := Option.some_inj.mp ends
        obtain ⟨⟨source, reached⟩, _⟩ := shaped.live_of_leads (joins.leads_iff.mp leads)
        rw [joins.vacant] at reached
        cases reached
    · obtain ⟨ms, mem, run⟩ := shaped.complete one n original
      exact ⟨ms, mem, run.congr (fun _ _ _ => joins.leads_iff) fun _ _ _ => joins.leads_iff⟩

theorem Sound.joins (sound : g.Sound) (unknown : g.find r = none) (joins : g.Joins after id r) :
    after.Sound where
  toShaped := sound.toShaped.joins unknown joins
  steps one n next successor found onward reached := by
    rcases joins.cases found with ⟨_, rfl⟩ | original
    · cases onward
    · obtain ⟨successor', reached', _⟩ := sound.forward _ _ _ original onward
      cases reached.symm.trans (joins.kept reached')
      exact sound.steps _ _ _ _ original onward reached'
  loose one n found free := by
    rcases joins.cases found with ⟨_, rfl⟩ | original
    · rfl
    · exact sound.loose one n original free

end ChainGraph

end RegisterChains

/-
This file says what a link does to the chains. The runs of the two registers become one, in
which parities alternate as before; every other run keeps its nodes, except that a mandatory
link cuts the optional links of the chains it joins. A link that is refused changes nothing.
-/

import RegisterChains.Proofs.Chain.Spreading

namespace RegisterChains

open Parity

namespace ChainGraph

open List

variable {g : ChainGraph} {a b id : NodeId} {must via : Bool} {pre post : List NodeId}
  {hi : Node}

/-! ### Joining two chains -/

/-- A node after two nodes have been linked. -/
def joinNode (a b : NodeId) (must via : Bool) (id : NodeId) (n : Node) : Node :=
  { n with
    prev := if id = b then some a else n.prev
    next := if id = a then some b else n.next
    optionalLink := if id = a then !must else n.optionalLink
    instructionLinked := if id = a then via else n.instructionLinked }

/-- The graph in which two nodes are linked, before parities are spread. -/
def tied (g : ChainGraph) (a b : NodeId) (must via : Bool) : ChainGraph :=
  ((g.update a fun n =>
    { n with
      next := some b
      optionalLink := !must
      instructionLinked := via }).update b fun n =>
    { n with prev := some a }).unmarkHead b

theorem join_eq (g : ChainGraph) (a b : NodeId) (must via : Bool) :
    g.join a b must via = (g.tied a b must via).spreadParity
        (if ((g.tied a b must via).node? a).any (!·.parity.isAny) then a else b) := rfl

/-- Two nodes that can be linked: nothing follows the one, nothing precedes the other, and
they are on different chains. -/
structure Joinable (g : ChainGraph) (first second : NodeId) (before behind : List NodeId)
    (low high : Node) : Prop where
  firstFound : g.node? first = some low
  secondFound : g.node? second = some high
  firstRun : IsRun (g.Leads false) (before ++ [first])
  secondRun : IsRun (g.Leads false) (second :: behind)
  apart : second ∉ before ++ [first]
  parity : low.parity = .any ∨ high.parity = .any ∨ high.parity = low.parity.complement

namespace Joinable

variable {pre post : List NodeId} {lo hi : Node}

section

variable (joinable : g.Joinable a b pre post lo hi)

include joinable

theorem ne : a ≠ b := by
  rintro rfl
  exact joinable.apart (by simp)

theorem not_leads_first (next : NodeId) : ¬ g.Leads false a next :=
  joinable.firstRun.last a (by simp) next

theorem not_leads_second (prev : NodeId) : ¬ g.Leads false prev b :=
  joinable.secondRun.first b rfl prev

end

section

variable (joinable : g.Joinable a b pre post lo hi) (shaped : g.Shaped)

include joinable shaped

theorem disjoint (mem : id ∈ pre ++ [a]) (mem' : id ∈ b :: post) : False := by
  have same := joinable.firstRun.eq_of_mem (shaped.leads_leftUnique false)
    (leads_rightUnique false) joinable.secondRun mem mem'
  refine joinable.apart ?_
  rw [same]
  exact mem_cons_self

theorem recast_tied (must via : Bool) : g.Recast (g.tied a b must via)
      (joinNode a b must via) := by
  have one := recast_update shaped.pool a fun n =>
    { n with
      next := some b
      optionalLink := !must
      instructionLinked := via }
  have other := recast_update one.pool b fun n => { n with prev := some a }
  have both := one.trans other
  refine ⟨both.pool, both.byRegister, both.limits, ?_⟩
  refine (both.congr fun id n _ => ?_).node
  unfold joinNode
  by_cases isSecond : id = b
  · have notFirst : id ≠ a := fun isFirst => joinable.ne (isFirst.symm.trans isSecond)
    simp only [if_pos isSecond, if_neg notFirst]
  · by_cases isFirst : id = a
    · simp only [if_neg isSecond, if_pos isFirst]
    · simp only [if_neg isSecond, if_neg isFirst]

theorem leads_tied {mustOnly : Bool} {source target : NodeId} :
    (g.tied a b must via).Leads mustOnly source target ↔ g.Leads mustOnly source target ∨
        (source = a ∧ target = b ∧ (mustOnly = true → must = true)) := by
  have recast := joinable.recast_tied shaped must via
  constructor
  · rintro ⟨ch, found, onward, needed⟩
    obtain ⟨n, orig, rfl⟩ := recast.exists_of_some found
    by_cases isFirst : source = a
    · simp only [joinNode, if_pos isFirst] at onward needed
      refine .inr ⟨isFirst, (Option.some_inj.mp onward).symm, fun only => ?_⟩
      simpa using needed only
    · simp only [joinNode, if_neg isFirst] at onward needed
      exact .inl ⟨n, orig, onward, needed⟩
  · rintro (leads | ⟨rfl, rfl, needed⟩)
    · have notFirst : source ≠ a := by
        rintro rfl
        exact joinable.not_leads_first target leads.weaken
      obtain ⟨n, found, onward, needed⟩ := leads
      refine ⟨_, recast.some found, ?_, ?_⟩
      · simp only [joinNode, if_neg notFirst]
        exact onward
      · simp only [joinNode, if_neg notFirst]
        exact needed
    · refine ⟨_, recast.some joinable.firstFound, ?_, fun only => ?_⟩
      · simp only [joinNode, if_true]
      · simp only [joinNode, if_true, needed only, Bool.not_true]

theorem run_tied : IsRun ((g.tied a b must via).Leads false) (pre ++ a :: b :: post) := by
  have merged : pre ++ a :: b :: post = (pre ++ [a]) ++ b :: post := by
    simp
  have final : (pre ++ [a]).getLast? = some a := by simp
  rw [merged]
  refine joinable.firstRun.append joinable.secondRun final rfl ?_ ?_ ?_
  · intro source target
    rw [joinable.leads_tied shaped]
    simp
  · rintro elem starts rfl
    exact joinable.apart (mem_of_mem_head? starts)
  · rintro elem ends rfl
    exact joinable.disjoint shaped (by simp) (mem_of_mem_getLast? ends)

theorem shaped_tied : (g.tied a b must via).Shaped := by
  have recast := joinable.recast_tied shaped must via
  refine ⟨recast.pool, recast.registered shaped fun _ _ => rfl, ?_, ?_, ?_, ?_, ?_⟩
  · intro id ch next found onward
    obtain ⟨n, orig, rfl⟩ := recast.exists_of_some found
    by_cases isFirst : id = a
    · subst isFirst
      simp only [joinNode, if_true, Option.some_inj] at onward
      subst onward
      exact ⟨_, recast.some joinable.secondFound, by simp [joinNode]⟩
    · simp only [joinNode, if_neg isFirst] at onward
      obtain ⟨successor, reached, back⟩ := shaped.forward _ _ _ orig onward
      have notSecond : next ≠ b := by
        rintro rfl
        refine joinable.not_leads_second id ⟨n, orig, onward, ?_⟩
        intro no
        cases no
      refine ⟨_, recast.some reached, ?_⟩
      simp only [joinNode, if_neg notSecond]
      exact back
  · intro id ch prev found back
    obtain ⟨n, orig, rfl⟩ := recast.exists_of_some found
    by_cases isSecond : id = b
    · subst isSecond
      simp only [joinNode, if_true, Option.some_inj] at back
      subst back
      exact ⟨_, recast.some joinable.firstFound, by simp [joinNode]⟩
    · simp only [joinNode, if_neg isSecond] at back
      obtain ⟨predecessor, reached, onward⟩ := shaped.backward _ _ _ orig back
      have notFirst : prev ≠ a := by
        rintro rfl
        refine joinable.not_leads_first id ⟨predecessor, reached, onward, ?_⟩
        intro no
        cases no
      refine ⟨_, recast.some reached, ?_⟩
      simp only [joinNode, if_neg notFirst]
      exact onward
  · intro id
    rw [tied, mem_unmarkHead]
    show id ∈ g.heads ∧ id ≠ b ↔ _
    rw [shaped.heads]
    constructor
    · rintro ⟨⟨n, found, starts⟩, notSecond⟩
      refine ⟨_, recast.some found, ?_⟩
      simp only [joinNode, if_neg notSecond]
      exact starts
    · rintro ⟨ch, found, starts⟩
      obtain ⟨n, orig, rfl⟩ := recast.exists_of_some found
      have notSecond : id ≠ b := by
        rintro rfl
        simp [joinNode] at starts
      simp only [joinNode, if_neg notSecond] at starts
      exact ⟨⟨n, orig, starts⟩, notSecond⟩
  · intro id ch found last
    obtain ⟨n, orig, rfl⟩ := recast.exists_of_some found
    have notFirst : id ≠ a := by
      rintro rfl
      simp [joinNode] at last
    simp only [joinNode, if_neg notFirst] at last ⊢
    exact shaped.ended id n orig last
  · intro id ch found
    obtain ⟨n, orig, rfl⟩ := recast.exists_of_some found
    by_cases mem : id ∈ pre ++ a :: b :: post
    · exact ⟨_, mem, joinable.run_tied shaped⟩
    · obtain ⟨ms, isMem, run⟩ := shaped.complete id n orig
      -- A chain that is neither of the two is left as it is.
      have away : ∀ elem ∈ ms, elem ≠ a ∧ elem ≠ b := by
        intro elem included
        constructor
        · rintro rfl
          have same := run.eq_of_mem (shaped.leads_leftUnique false) (leads_rightUnique false)
            joinable.firstRun included (by simp)
          rw [same] at isMem
          refine mem ?_
          simp only [mem_append, mem_cons, not_mem_nil, or_false] at isMem ⊢
          tauto
        · rintro rfl
          have same := run.eq_of_mem (shaped.leads_leftUnique false) (leads_rightUnique false)
            joinable.secondRun included (by simp)
          rw [same] at isMem
          exact mem (mem_append_right _ (mem_cons_of_mem _ isMem))
      refine ⟨ms, isMem, run.congr ?_ ?_⟩
      · intro elem included next
        rw [joinable.leads_tied shaped]
        simp [(away elem included).1]
      · intro elem included previous
        rw [joinable.leads_tied shaped]
        simp [(away elem included).2]

/-- The node whose parity is spread over the joined chain. -/
theorem join_eq_spread : g.join a b must via = (g.tied a b must via).spreadParity
        (if lo.parity = .any then b else a) := by
  have found := (joinable.recast_tied shaped must via).some joinable.firstFound
  rw [join_eq, found, Option.any_some]
  by_cases free : lo.parity = .any
  · rw [if_pos free, if_neg]
    simp [joinNode, free, isAny]
  · rw [if_neg free, if_pos]
    simp [joinNode, Bool.eq_false_iff, isAny_iff, free]

end

end Joinable

/-- What linking two nodes comes to. -/
structure Linked (g after : ChainGraph) (first second : NodeId) (must : Bool) :
    Prop where
  sound : after.Sound
  grows : g.Grows after
  live : ∀ id, after.node? id = none ↔ g.node? id = none
  leads : ∀ mustOnly source target, after.Leads mustOnly source target ↔
    g.Leads mustOnly source target ∨
      (source = first ∧ target = second ∧ (mustOnly = true → must = true))
  /-- A parity is new only on the joined chain, and only if one of the two ends had one. -/
  parity : ∀ id node node', g.node? id = some node → after.node? id = some node' →
    node'.parity ≠ node.parity →
      (∃ members, IsRun (after.Leads false) members ∧ id ∈ members ∧ first ∈ members) ∧
        ∃ source node, (source = first ∨ source = second) ∧ g.node? source = some node ∧
          node.parity ≠ .any
  /-- Nodes of other chains are left as they are. -/
  elsewhere : ∀ id node, g.node? id = some node →
    (∀ members, IsRun (g.Leads false) members → id ∈ members →
      first ∉ members ∧ second ∉ members) → after.node? id = some node

/-- A node of another chain is not on the joined one. -/
theorem Joinable.not_mem_of_apart {lo : Node} (joinable : g.Joinable a b pre post lo hi)
    (apart : ∀ ms, IsRun (g.Leads false) ms → id ∈ ms → a ∉ ms ∧ b ∉ ms) :
    id ∉ pre ++ a :: b :: post := by
  have split : pre ++ a :: b :: post = (pre ++ [a]) ++ b :: post := by
    simp
  rw [split]
  intro mem
  rcases mem_append.mp mem with early | late
  · exact (apart _ joinable.firstRun early).1 (by simp)
  · exact (apart _ joinable.secondRun late).2 (by simp)

theorem joinNode_of_ne (notFirst : id ≠ a) (notSecond : id ≠ b) (n : Node) :
    joinNode a b must via id n = n := by
  unfold joinNode
  simp only [if_neg notFirst, if_neg notSecond]

section

variable {lo : Node} (joinable : g.Joinable a b pre post lo hi) (sound : g.Sound)

include joinable sound

theorem Joinable.linked_quiet (lowFree : lo.parity = .any) (highFree : hi.parity = .any) :
    g.Linked (g.join a b must via) a b must := by
  have recast := joinable.recast_tied sound.toShaped must via
  have shaped : (g.tied a b must via).Shaped := joinable.shaped_tied sound.toShaped
  have unchanged : g.join a b must via = g.tied a b must via := by
    rw [joinable.join_eq_spread sound.toShaped, if_pos lowFree]
    unfold spreadParity
    rw [recast.some joinable.secondFound]
    simp [joinNode, highFree, isAny]
  rw [unchanged]
  refine ⟨⟨shaped, ?_, ?_⟩, ?_, recast.live, ?_, ?_, ?_⟩
  · intro id ch next ch' found onward found'
    obtain ⟨n, orig, rfl⟩ := recast.exists_of_some found
    obtain ⟨successor, original', rfl⟩ := recast.exists_of_some found'
    by_cases isFirst : id = a
    · subst isFirst
      simp only [joinNode, if_true, Option.some_inj] at onward
      subst onward
      cases orig.symm.trans joinable.firstFound
      cases original'.symm.trans joinable.secondFound
      simp only [joinNode, lowFree, highFree]
      rw [sound.loose _ _ orig lowFree, sound.loose _ _ original' highFree]
      exact ⟨rfl, rfl⟩
    · simp only [joinNode, if_neg isFirst] at onward
      exact sound.steps id n next successor orig onward original'
  · intro id ch found free
    obtain ⟨n, orig, rfl⟩ := recast.exists_of_some found
    exact sound.loose id n orig free
  · refine recast.grows (fun id n _ => ⟨rfl, rfl, rfl, fun _ => rfl⟩) fun _ _ leads => ?_
    exact (joinable.leads_tied sound.toShaped).mpr (.inl leads)
  · intro mustOnly source target
    exact joinable.leads_tied sound.toShaped
  · intro id n ch orig found differs
    rw [recast.some orig] at found
    cases found
    exact absurd rfl differs
  · intro id n orig apart
    have outside := joinable.not_mem_of_apart apart
    rw [recast.some orig, joinNode_of_ne (by rintro rfl; simp at outside)
      (by rintro rfl; simp at outside)]

/-- The parity that the spread one gives to a place of the joined chain is the one that the
node there already has, if it has one. -/
theorem Joinable.parity_consistent {base : Parity}
    (source : (lo.parity ≠ .any ∧ base = lo.parity.atOffset pre.length) ∨
      (lo.parity = .any ∧ base = hi.parity.atOffset (pre.length + 1))) {i : Nat} {n : Node}
    (placed : (pre ++ a :: b :: post)[i]? = some id) (found : g.node? id = some n)
    (fixed : n.parity ≠ .any) : base.atOffset i = n.parity := by
  have merged : pre ++ a :: b :: post = (pre ++ [a]) ++ b :: post := by
    simp
  rw [merged] at placed
  by_cases early : i < (pre ++ [a]).length
  · rw [getElem?_append_left early] at placed
    have here : (pre ++ [a])[pre.length]? = some a := by simp
    obtain ⟨between, _⟩ := sound.toAlternating.parity_between joinable.firstRun sound.toShaped
      here placed joinable.firstFound found
    rw [between]
    rcases source with ⟨_, rfl⟩ | ⟨free, _⟩
    · rw [atOffset_atOffset]
    · rw [between, free] at fixed
      exact absurd (atOffset_eq_any.mpr rfl) fixed
  · rw [getElem?_append_right (Nat.le_of_not_lt early)] at placed
    rw [length_append, length_singleton] at placed early
    have here : (b :: post)[0]? = some b := rfl
    obtain ⟨between, _⟩ := sound.toAlternating.parity_between joinable.secondRun sound.toShaped
      here placed joinable.secondFound found
    rw [between]
    rcases source with ⟨lowFixed, rfl⟩ | ⟨_, rfl⟩
    · have highFixed : hi.parity ≠ .any := by
        intro free
        rw [between, free] at fixed
        exact fixed (atOffset_eq_any.mpr rfl)
      have flipped : hi.parity = lo.parity.atOffset 1 := by
        rcases joinable.parity with free | free | complement
        · exact absurd free lowFixed
        · exact absurd free highFixed
        · exact complement
      rw [flipped, atOffset_atOffset, atOffset_atOffset]
      exact atOffset_congr _ (by omega)
    · rw [atOffset_atOffset]
      exact atOffset_congr _ (by omega)

theorem Joinable.linked_spread (fixed : lo.parity ≠ .any ∨ hi.parity ≠ .any) :
    g.Linked (g.join a b must via) a b must := by
  have recast := joinable.recast_tied sound.toShaped must via
  have shaped : (g.tied a b must via).Shaped := joinable.shaped_tied sound.toShaped
  have run : IsRun ((g.tied a b must via).Leads false)
      (pre ++ a :: b :: post) := joinable.run_tied sound.toShaped
  obtain ⟨base, source, baseFixed, heads, flag, spread⟩ : ∃ base,
      ((lo.parity ≠ .any ∧ base = lo.parity.atOffset pre.length) ∨
        (lo.parity = .any ∧ base = hi.parity.atOffset (pre.length + 1))) ∧
      base ≠ .any ∧
      (g.join a b must via).heads = (g.tied a b must via).heads ∧
      ∃ flag, (g.tied a b must via).Recast (g.join a b must via)
        (alternateNode base flag (pre ++ a :: b :: post)) := by
    rw [joinable.join_eq_spread sound.toShaped]
    by_cases free : lo.parity = .any
    · rw [if_pos free]
      have highFixed : hi.parity ≠ .any := by
        rcases fixed with lowFixed | highFixed
        · exact absurd free lowFixed
        · exact highFixed
      have split : pre ++ a :: b :: post = (pre ++ [a]) ++ b :: post := by
        simp
      rw [split] at run ⊢
      obtain ⟨heads, spread⟩ :=
        shaped.recast_spreadParity (recast.some joinable.secondFound) highFixed run
      rw [length_append, length_singleton] at spread
      exact ⟨_, .inr ⟨free, rfl⟩, atOffset_eq_any.not.mpr highFixed, heads, spread⟩
    · rw [if_neg free]
      obtain ⟨heads, spread⟩ :=
        shaped.recast_spreadParity (recast.some joinable.firstFound) free run
      exact ⟨_, .inl ⟨free, rfl⟩, atOffset_eq_any.not.mpr free, heads, spread⟩
  have both := recast.trans spread
  have distinct := run.nodup (shaped.leads_leftUnique false)
  have leads : ∀ mustOnly source target, (g.join a b must via).Leads mustOnly source target ↔
        g.Leads mustOnly source target ∨
          (source = a ∧ target = b ∧ (mustOnly = true → must = true)) :=
    fun _ _ _ => spread.leads_alternate.trans (joinable.leads_tied sound.toShaped)
  refine ⟨?_, ?_, both.live, leads, ?_, ?_⟩
  · refine shaped.sound_alternate run baseFixed heads spread ?_ ?_
    · intro id ch next ch' outside found onward found'
      obtain ⟨n, orig, rfl⟩ := recast.exists_of_some found
      obtain ⟨successor, original', rfl⟩ := recast.exists_of_some found'
      have notFirst : id ≠ a := by
        rintro rfl
        exact outside (by simp)
      simp only [joinNode, if_neg notFirst] at onward
      exact sound.steps id n next successor orig onward original'
    · intro id ch _ found free
      obtain ⟨n, orig, rfl⟩ := recast.exists_of_some found
      exact sound.loose id n orig free
  · refine both.grows ?_ fun _ _ old => (leads true _ _).mpr (.inl old)
    intro id n orig
    refine ⟨by simp [joinNode], by simp [joinNode], by simp [joinNode], fun nodeFixed => ?_⟩
    by_cases mem : id ∈ pre ++ a :: b :: post
    · obtain ⟨i, bound, named⟩ := getElem_of_mem mem
      have placed : (pre ++ a :: b :: post)[i]? = some id := by
        rw [getElem?_eq_getElem bound, named]
      rw [alternateNode_of_mem mem]
      show base.atOffset _ = n.parity
      rw [idxOf_eq_of_getElem? distinct placed]
      exact joinable.parity_consistent sound source placed orig nodeFixed
    · rw [alternateNode_of_not_mem mem]
      rfl
  · intro id n ch orig found differs
    have mem : id ∈ pre ++ a :: b :: post := by
      by_contra outside
      rw [both.some orig, alternateNode_of_not_mem outside] at found
      cases found
      exact differs rfl
    refine ⟨⟨_, run.congr ?_ ?_, mem, by simp⟩, ?_⟩
    · exact fun _ _ _ => spread.leads_alternate
    · exact fun _ _ _ => spread.leads_alternate
    · rcases fixed with lowFixed | highFixed
      · exact ⟨a, lo, .inl rfl, joinable.firstFound, lowFixed⟩
      · exact ⟨b, hi, .inr rfl, joinable.secondFound, highFixed⟩
  · intro id n orig apart
    have outside := joinable.not_mem_of_apart apart
    rw [both.some orig, alternateNode_of_not_mem outside,
      joinNode_of_ne (by rintro rfl; simp at outside) (by rintro rfl; simp at outside)]

/-- Two nodes that can be linked are linked, and nothing else changes but parities. -/
theorem Joinable.linked : g.Linked (g.join a b must via) a b must := by
  by_cases quiet : lo.parity = .any ∧ hi.parity = .any
  · exact joinable.linked_quiet sound quiet.1 quiet.2
  · exact joinable.linked_spread sound (not_and_or.mp quiet)

end

end ChainGraph

end RegisterChains

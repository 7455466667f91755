/-
This file is about parities on chains. On a chain whose parities alternate, the parity of
one node gives that of every other one. Demanding a parity of a node spreads it over the
whole chain, and what a chain needed before it still needs afterwards.
-/

import RegisterChains.Proofs.Chain.Cutting

namespace RegisterChains

open List Parity

namespace Parity

@[simp] theorem complement_complement (parity : Parity) :
    parity.complement.complement = parity := by
  cases parity <;> rfl

theorem isAny_iff {parity : Parity} : parity.isAny = true ↔ parity = .any := by
  cases parity <;> decide

@[simp] theorem complement_eq_any {parity : Parity} : parity.complement = .any ↔ parity = .any := by
  cases parity <;> decide

@[simp] theorem atOffset_zero (parity : Parity) : parity.atOffset 0 = parity := rfl

@[simp] theorem atOffset_eq_any {parity : Parity} {offset : Nat} :
    parity.atOffset offset = .any ↔ parity = .any := by
  unfold atOffset
  split <;> simp

theorem atOffset_atOffset (parity : Parity) (a b : Nat) :
    (parity.atOffset a).atOffset b = parity.atOffset (a + b) := by
  rcases Nat.mod_two_eq_zero_or_one a with even | odd <;>
    rcases Nat.mod_two_eq_zero_or_one b with even' | odd' <;>
      simp [atOffset, Nat.add_mod, *]

theorem atOffset_succ (parity : Parity) (offset : Nat) :
    parity.atOffset (offset + 1) = (parity.atOffset offset).complement := by
  rw [← atOffset_atOffset]
  rfl

theorem atOffset_congr (parity : Parity) {a b : Nat} (same : a % 2 = b % 2) :
    parity.atOffset a = parity.atOffset b := by
  unfold atOffset
  rw [same]

end Parity

namespace ChainGraph

variable {g after : ChainGraph} {id a b : NodeId} {n : Node} {ms post pre : List NodeId}
  {base parity : Parity} {mandatory : Bool} {i : Nat}

/-! ### Parities along a chain -/

theorem Alternating.step (alternating : g.Alternating) {successor : Node}
    (leads : g.Leads false a b) (found : g.node? a = some n)
    (reached : g.node? b = some successor) :
    successor.parity = n.parity.complement ∧ successor.parityMandatory = n.parityMandatory := by
  obtain ⟨n', found', onward, _⟩ := leads
  cases found.symm.trans found'
  exact alternating.steps a n b successor found onward reached

/-- The parity of the first node of a chain gives that of every other one. -/
theorem Alternating.parity_at (alternating : g.Alternating) {head : NodeId} {rest : List NodeId}
    (linked : (head :: rest).IsChain (g.Leads false)) {node : Node}
    (starts : g.node? head = some node) (placed : (head :: rest)[i]? = some id)
    (found : g.node? id = some n) :
    n.parity = node.parity.atOffset i ∧ n.parityMandatory = node.parityMandatory := by
  induction i generalizing id n with
  | zero =>
    cases placed
    cases starts.symm.trans found
    exact ⟨rfl, rfl⟩
  | succ i ih =>
    have bound : i + 1 < (head :: rest).length := lt_of_getElem? placed
    have leads := linked.getElem i bound
    have live : ∃ pre, g.node? (head :: rest)[i] = some pre := by
      obtain ⟨pre, reached, _⟩ := leads
      exact ⟨pre, reached⟩
    obtain ⟨pre, reached⟩ := live
    have here : (head :: rest)[i]? = some (head :: rest)[i] :=
      getElem?_eq_getElem (by omega)
    have named : (head :: rest)[i + 1] = id := (List.getElem?_eq_some_iff.mp placed).2
    rw [named] at leads
    obtain ⟨parity, mandatory⟩ := ih here reached
    obtain ⟨flipped, kept⟩ := alternating.step leads reached found
    rw [flipped, parity, kept, mandatory, atOffset_succ]
    exact ⟨rfl, rfl⟩

/-- Parities of two nodes of one chain differ by the parity of their distance. -/
theorem Alternating.parity_between (alternating : g.Alternating) (run : IsRun (g.Leads false) ms)
    (shaped : g.Shaped) {i' : Nat} {id' : NodeId} {n' : Node} (placed : ms[i]? = some id)
    (placed' : ms[i']? = some id') (found : g.node? id = some n) (found' : g.node? id' = some n') :
    n'.parity = n.parity.atOffset (i + i') ∧
      n'.parityMandatory = n.parityMandatory := by
  cases ms with
  | nil => cases placed
  | cons head rest =>
    obtain ⟨node, starts⟩ := shaped.live_of_mem run found (mem_of_getElem? placed) mem_cons_self
    obtain ⟨parity, mandatory⟩ := alternating.parity_at run.linked starts placed found
    obtain ⟨parity', mandatory'⟩ := alternating.parity_at run.linked starts placed' found'
    rw [parity, parity', mandatory, mandatory', atOffset_atOffset]
    exact ⟨atOffset_congr _ (by omega), rfl⟩

/-! ### Alternating parities -/

/-- A node after a list of nodes has been given alternating parities. -/
def alternateNode (base : Parity) (mandatory : Bool) (ms : List NodeId) (id : NodeId)
    (n : Node) : Node :=
  if ms.contains id then
    { n with parity := base.atOffset (ms.idxOf id), parityMandatory := mandatory }
  else n

theorem alternateNode_of_mem (mem : id ∈ ms) (n : Node) : alternateNode base mandatory ms id n =
      { n with parity := base.atOffset (ms.idxOf id), parityMandatory := mandatory } :=
  if_pos (contains_iff_mem.mpr mem)

theorem alternateNode_of_not_mem (outside : id ∉ ms) (n : Node) :
    alternateNode base mandatory ms id n = n :=
  if_neg fun mem => outside (contains_iff_mem.mp mem)

section Fields

variable (base : Parity) (mandatory : Bool) (ms : List NodeId) (id : NodeId) (n : Node)

@[simp] theorem alternateNode_register :
    (alternateNode base mandatory ms id n).register = n.register := by
  unfold alternateNode
  split <;> rfl

@[simp] theorem alternateNode_prev : (alternateNode base mandatory ms id n).prev = n.prev := by
  unfold alternateNode
  split <;> rfl

@[simp] theorem alternateNode_next : (alternateNode base mandatory ms id n).next = n.next := by
  unfold alternateNode
  split <;> rfl

@[simp] theorem alternateNode_pin : (alternateNode base mandatory ms id n).pin = n.pin := by
  unfold alternateNode
  split <;> rfl

@[simp] theorem alternateNode_payload :
    (alternateNode base mandatory ms id n).payload = n.payload := by
  unfold alternateNode
  split <;> rfl

@[simp] theorem alternateNode_optionalLink :
    (alternateNode base mandatory ms id n).optionalLink = n.optionalLink := by
  unfold alternateNode
  split <;> rfl

@[simp] theorem alternateNode_instructionLinked :
    (alternateNode base mandatory ms id n).instructionLinked = n.instructionLinked := by
  unfold alternateNode
  split <;> rfl

end Fields

theorem recast_alternateFrom (pool : g.nodes.Sound) (base : Parity) (mandatory : Bool)
    (distinct : ms.Nodup) (start : Nat) :
    let result := (ms.zipIdx start).foldl (fun g (id, i) =>
      g.update id fun n =>
        { n with parity := base.atOffset i, parityMandatory := mandatory }) g
    result.heads = g.heads ∧
      g.Recast result (alternateNode (base.atOffset start) mandatory ms) := by
  induction ms generalizing g start with
  | nil => exact ⟨rfl, recast_refl pool⟩
  | cons id rest ih =>
    obtain ⟨absent, distinctRest⟩ := nodup_cons.mp distinct
    have one := recast_update pool id fun n =>
      { n with parity := base.atOffset start, parityMandatory := mandatory }
    obtain ⟨heads, others⟩ := ih one.pool distinctRest (start + 1)
    refine ⟨heads, (one.trans others).congr fun other n _ => ?_⟩
    by_cases same : other = id
    · subst same
      rw [if_pos rfl, alternateNode_of_not_mem absent, alternateNode_of_mem mem_cons_self,
        idxOf_cons_self, atOffset_zero]
    · rw [if_neg same]
      by_cases mem : other ∈ rest
      · rw [alternateNode_of_mem mem, alternateNode_of_mem (mem_cons_of_mem id mem),
          idxOf_cons_ne rest (Ne.symm same), atOffset_atOffset,
          atOffset_atOffset]
        congr 2
        omega
      · rw [alternateNode_of_not_mem mem, alternateNode_of_not_mem]
        rw [mem_cons]
        rintro (impossible | impossible)
        · exact same impossible
        · exact mem impossible

/-- Spreading a parity gives the nodes of the chain alternating ones. -/
theorem Shaped.recast_spreadParity (shaped : g.Shaped) (found : g.node? id = some n)
    (fixed : n.parity ≠ .any) (run : IsRun (g.Leads false) (pre ++ id :: post)) :
    (g.spreadParity id).heads = g.heads ∧ ∃ mandatory, g.Recast (g.spreadParity id)
        (alternateNode (n.parity.atOffset pre.length) mandatory (pre ++ id :: post)) := by
  have distinct := run.nodup (shaped.leads_leftUnique false)
  obtain ⟨head, starts, seen⟩ := shaped.segment_eq found run
  have listed := shaped.chain_headOf found run mem_append_cons_self
  rw [headOf, seen] at listed
  have notAny : ¬ n.parity.isAny = true := fun isAny => fixed (isAny_iff.mp isAny)
  unfold spreadParity
  simp only [found, if_neg notAny, seen, listed]
  obtain ⟨heads, recast⟩ := recast_alternateFrom shaped.pool (n.parity.atOffset pre.length)
    ((pre ++ id :: post).any fun mem => (g.node? mem).any (·.parityMandatory))
    distinct 0
  exact ⟨heads, _, recast⟩

theorem Recast.shaped_alternate (shaped : g.Shaped) (heads : after.heads = g.heads)
    (recast : g.Recast after (alternateNode base mandatory ms)) : after.Shaped := by
  refine shaped.recast recast heads (by simp) (by simp) (by simp) ?_
  intro id n found last
  rw [alternateNode_optionalLink, alternateNode_instructionLinked]
  exact shaped.ended id n found last

theorem Recast.leads_alternate {must : Bool}
    (recast : g.Recast after (alternateNode base mandatory ms)) :
    after.Leads must a b ↔ g.Leads must a b := by
  exact recast.leads_iff (by simp) (by simp)

/-- A chain with alternating parities is sound if the other chains are. -/
theorem Shaped.sound_alternate (shaped : g.Shaped) (run : IsRun (g.Leads false) ms)
    (fixed : base ≠ .any) (heads : after.heads = g.heads)
    (recast : g.Recast after (alternateNode base mandatory ms))
    (steps : ∀ id n next successor, id ∉ ms → g.node? id = some n →
      n.next = some next → g.node? next = some successor → successor.parity = n.parity.complement ∧
          successor.parityMandatory = n.parityMandatory)
    (loose : ∀ id n, id ∉ ms → g.node? id = some n → n.parity = .any →
      n.parityMandatory = false) : after.Sound where
  toShaped := recast.shaped_alternate shaped heads
  steps id ch next ch' found onward found' := by
    obtain ⟨n, orig, rfl⟩ := recast.exists_of_some found
    obtain ⟨successor, original', rfl⟩ := recast.exists_of_some found'
    have leads : g.Leads false id next :=
      recast.leads_alternate.mp ⟨_, found, onward, fun impossible => by cases impossible⟩
    have distinct := run.nodup (shaped.leads_leftUnique false)
    by_cases mem : id ∈ ms
    · obtain ⟨pre, post, split⟩ := run.split_of_next (leads_rightUnique false) mem leads
      have placed : ms.idxOf id = pre.length :=
        idxOf_eq_of_getElem? distinct (by rw [split]; simp)
      have placed' : ms.idxOf next = pre.length + 1 :=
        idxOf_eq_of_getElem? distinct (by rw [split]; simp)
      have mem' : next ∈ ms := by
        rw [split]
        simp
      rw [alternateNode_of_mem mem, alternateNode_of_mem mem', placed, placed']
      exact ⟨atOffset_succ base pre.length, rfl⟩
    · have outside : next ∉ ms := by
        intro mem'
        obtain ⟨pre, post, split⟩ :=
          run.split_of_previous (shaped.leads_leftUnique false) mem' leads
        refine mem ?_
        rw [split]
        simp
      rw [alternateNode_of_not_mem mem] at onward ⊢
      rw [alternateNode_of_not_mem outside]
      exact steps id n next successor mem orig onward original'
  loose id ch found free := by
    obtain ⟨n, orig, rfl⟩ := recast.exists_of_some found
    by_cases mem : id ∈ ms
    · rw [alternateNode_of_mem mem] at free
      exact absurd (atOffset_eq_any.mp free) fixed
    · rw [alternateNode_of_not_mem mem] at free ⊢
      exact loose id n mem orig free

/-! ### Demanding a parity -/

/-- A change of parities that leaves every link as it was. -/
structure Settles (g after : ChainGraph) : Prop where
  sound : after.Sound
  grows : g.Grows after
  leads : ∀ mustOnly first second, after.Leads mustOnly first second ↔ g.Leads mustOnly first second
  live : ∀ id, after.node? id = none ↔ g.node? id = none

theorem Sound.settles_refl (sound : g.Sound) : g.Settles g :=
  ⟨sound, Grows.refl g, fun _ _ _ => Iff.rfl, fun _ => Iff.rfl⟩

theorem Recast.live {change : NodeId → Node → Node} (recast : g.Recast after change) (id : NodeId) :
    after.node? id = none ↔ g.node? id = none := by
  rw [recast.node, Option.map_eq_none_iff]

theorem setParity_eq (found : g.node? id = some n) (demanded : parity ≠ .any) (mandatory : Bool)
    (free : n.parity = .any ∨ n.parity = parity) :
    g.setParity id parity mandatory = (true, (g.update id fun n => { n with
        parity := parity
        parityMandatory := n.parityMandatory || mandatory }).spreadParity id) := by
  have asked : ¬ parity.isAny = true := fun isAny => demanded (isAny_iff.mp isAny)
  have accepted : ¬ (!n.parity.isAny && decide (n.parity ≠ parity)) = true := by
    rcases free with none | same
    · simp [none, isAny]
    · simp [same]
  unfold setParity
  simp only [found, if_neg asked, if_neg accepted]

theorem setParity_of_any (mandatory : Bool) : g.setParity id .any mandatory = (true, g) := by
  unfold setParity
  cases g.node? id <;> rfl

theorem setParity_of_ne (found : g.node? id = some n) (demanded : parity ≠ .any)
    (mandatory : Bool) (taken : ¬ (n.parity = .any ∨ n.parity = parity)) :
    g.setParity id parity mandatory = (false, g) := by
  have asked : ¬ parity.isAny = true := fun isAny => demanded (isAny_iff.mp isAny)
  have refused : (!n.parity.isAny && decide (n.parity ≠ parity)) = true := by
    rw [not_or] at taken
    simp [taken.2, Bool.eq_false_iff, isAny_iff, taken.1]
  unfold setParity
  simp only [found, if_neg asked, if_pos refused]

section

variable (sound : g.Sound) (found : g.node? id = some n) (demanded : parity ≠ .any)
  (mandatory : Bool) (free : n.parity = .any ∨ n.parity = parity)

include sound found demanded free

/-- A parity that is granted is spread over the chain of the node, and over nothing else. -/
theorem Sound.recast_setParity (run : IsRun (g.Leads false) (pre ++ id :: post)) :
    (g.setParity id parity mandatory).2.heads = g.heads ∧
      ∃ flag, g.Recast (g.setParity id parity mandatory).2
        (alternateNode (parity.atOffset pre.length) flag (pre ++ id :: post)) := by
  rw [setParity_eq found demanded mandatory free]
  have one := recast_update sound.pool id fun n =>
    { n with parity := parity, parityMandatory := n.parityMandatory || mandatory }
  have shaped : (g.update id fun n =>
      { n with
        parity := parity
        parityMandatory := n.parityMandatory || mandatory }).Shaped := by
    refine sound.toShaped.recast one rfl ?_ ?_ ?_ ?_
    · intro other n
      split <;> rfl
    · intro other n
      split <;> rfl
    · intro other n
      split <;> rfl
    · intro other n found last
      split <;> exact sound.ended other n found last
  have same : ∀ a b, (g.update id fun n =>
      { n with
        parity := parity
        parityMandatory := n.parityMandatory || mandatory }).Leads false a b ↔
        g.Leads false a b := by
    intro _ _
    refine one.leads_iff ?_ ?_
    · intro other n
      split <;> rfl
    · intro impossible
      cases impossible
  have found' := one.some found
  rw [if_pos rfl] at found'
  obtain ⟨heads, flag, spread⟩ := shaped.recast_spreadParity found' demanded
    (run.congr (fun _ _ _ => same _ _) fun _ _ _ => same _ _)
  refine ⟨heads, flag, (one.trans spread).congr fun other old _ => ?_⟩
  -- What was written on the node first is written over with the rest of its chain.
  by_cases mem : other ∈ pre ++ id :: post
  · rw [alternateNode_of_mem mem, alternateNode_of_mem mem]
    split <;> rfl
  · have outside : other ≠ id := by
      rintro rfl
      exact mem mem_append_cons_self
    rw [if_neg outside]

/-- A parity that is granted holds of the node, and the chain alternates from there. -/
theorem Sound.setParity_granted : g.Settles (g.setParity id parity mandatory).2 ∧
      ∃ n', (g.setParity id parity mandatory).2.node? id = some n' ∧ n'.parity = parity := by
  obtain ⟨pre, post, run⟩ := sound.toShaped.exists_run false found
  obtain ⟨heads, flag, recast⟩ := sound.recast_setParity found demanded mandatory free run
  have distinct := run.nodup (sound.leads_leftUnique false)
  refine ⟨⟨?_, ?_, fun _ _ _ => recast.leads_alternate, recast.live⟩, ?_⟩
  · exact sound.toShaped.sound_alternate run (atOffset_eq_any.not.mpr demanded) heads recast
      (fun one n next successor _ => sound.steps one n next successor)
      fun one n _ => sound.loose one n
  · refine recast.grows ?_ fun _ _ => recast.leads_alternate.mpr
    intro one old orig
    refine ⟨alternateNode_register .., alternateNode_pin .., alternateNode_payload .., ?_⟩
    intro fixed
    by_cases mem : one ∈ pre ++ id :: post
    · rw [alternateNode_of_mem mem]
      show (parity.atOffset pre.length).atOffset _ = old.parity
      obtain ⟨i, bound, named⟩ := getElem_of_mem mem
      have placed : (pre ++ id :: post)[i]? = some one := by
        rw [getElem?_eq_getElem bound, named]
      have here : (pre ++ id :: post)[pre.length]? = some id := by simp
      obtain ⟨between, _⟩ :=
        sound.toAlternating.parity_between run sound.toShaped here placed found orig
      rw [idxOf_eq_of_getElem? distinct placed, atOffset_atOffset, between]
      rcases free with none | granted
      · rw [none] at between
        exact absurd (between.trans (atOffset_eq_any.mpr rfl)) fixed
      · rw [granted]
    · rw [alternateNode_of_not_mem mem]
  · refine ⟨_, recast.some found, ?_⟩
    rw [alternateNode_of_mem mem_append_cons_self]
    have placed : (pre ++ id :: post).idxOf id = pre.length :=
      idxOf_eq_of_getElem? distinct (by simp)
    show (parity.atOffset pre.length).atOffset _ = parity
    rw [placed, atOffset_atOffset]
    exact (atOffset_congr parity (by omega)).trans (atOffset_zero parity)

end

/-- A demand that is refused changes nothing, and one that is granted only parities. -/
theorem Sound.settles_setParity (sound : g.Sound) (id : NodeId) (parity : Parity)
    (mandatory : Bool) : g.Settles (g.setParity id parity mandatory).2 := by
  cases found : g.node? id with
  | none =>
    unfold setParity
    rw [found]
    exact sound.settles_refl
  | some n =>
    by_cases demanded : parity = .any
    · rw [demanded, setParity_of_any]
      exact sound.settles_refl
    · by_cases free : n.parity = .any ∨ n.parity = parity
      · exact (sound.setParity_granted found demanded mandatory free).1
      · rw [setParity_of_ne found demanded mandatory free]
        exact sound.settles_refl

end ChainGraph

end RegisterChains

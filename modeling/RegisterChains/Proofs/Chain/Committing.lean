/-
This file is about committing runs. A commit only adds constraints, also when it stops half
way: what it was asked for so far stays, and chains still fit their banks. A commit that
ends has made each register of the run follow the one before it, and given the first one the
parity that was demanded.

Other changes leave the links and parities alone: pins and marks that are written on nodes, and
nodes for registers that had none. All that a cache of copies does to its graph is of this kind.
-/

import RegisterChains.Proofs.Chain.Bounds

namespace RegisterChains

namespace ChainGraph

open List

open Step

variable {g after : ChainGraph} {parity : Parity} {regs : List Register} {r : Register}
  {via must granted : Bool} {id : NodeId} {α : Type}

/-! ### Changes that only add constraints -/

/-- The constraints only grow, and chains still fit their banks. -/
structure Evolves (g after : ChainGraph) : Prop where
  sound : after.Sound
  grows : g.Grows after
  bounded : g.Bounded → after.Bounded

theorem Sound.evolves_refl (sound : g.Sound) : g.Evolves g :=
  ⟨sound, Grows.refl g, fun bounded => bounded⟩

theorem Evolves.trans {last : ChainGraph} (first : g.Evolves after) (second : after.Evolves last) :
    g.Evolves last :=
  ⟨second.sound, first.grows.trans second.grows,
    fun bounded => second.bounded (first.bounded bounded)⟩

theorem Sound.evolves_ensure (sound : g.Sound) (r : Register) : g.Evolves (g.ensure r).graph := by
  have equips := sound.equipped_ensure r
  refine ⟨equips.sound, equips.grows, fun bounded => ?_⟩
  exact bounded.shrink sound equips.sound equips.grows fun lo hi =>
    (equips.follows false lo hi).mp

section

variable (settles : g.Settles after) (sound : g.Sound)

include settles sound

theorem Settles.find (r : Register) : after.find r = g.find r :=
  settles.grows.find_eq sound.toShaped settles.sound.toShaped settles.live r

theorem Settles.follows_iff {must : Bool} {lo hi : Register} :
    after.Follows must lo hi ↔ g.Follows must lo hi := by
  unfold Follows
  simp only [settles.find sound, settles.leads]

theorem Settles.evolves : g.Evolves after :=
  ⟨settles.sound, settles.grows, fun bounded =>
    bounded.shrink sound settles.sound settles.grows fun _ _ => (settles.follows_iff sound).mp⟩

end

/-- A link only adds constraints. An optional one has to join pinned registers. -/
theorem Sound.evolves_link (sound : g.Sound) (lo hi : Register) (must via : Bool)
    (pinned : must = true ∨ (g.pinAt lo ≠ none ∧ g.pinAt hi ≠ none)) :
    g.Evolves (g.link lo hi must via).graph := by
  obtain ⟨sound', grows⟩ := sound.grows_link lo hi must via
  exact ⟨sound', grows, fun bounded => bounded.link sound lo hi must via pinned⟩

/-! ### What is left behind by a commit -/

theorem apply_yields {change : ChainGraph → Edit α} {v : α} :
    (apply change).Yields g v after ↔ v = (change g).result ∧ after = (change g).graph := by
  show Except.ok (change g).result = .ok v ∧ (change g).graph = after ↔ _
  rw [Except.ok.injEq, eq_comm, @eq_comm _ _ after]

theorem apply_leaves {change : ChainGraph → Edit α} :
    (apply change).leaves g = (change g).graph := rfl

/-- A property that is kept when a register gets a node, when a register has to follow another one,
and when a parity is demanded. -/
structure Endures (holds : ChainGraph → Prop) : Prop where
  ensure : ∀ {g} reg, holds g → holds (g.ensure reg).graph
  demand : ∀ {g} low high viaInst, holds g → holds (g.link low high true viaInst).graph
  setParity : ∀ {g} id parity must, holds g → holds (g.setParity id parity must).2

namespace Endures

variable {holds : ChainGraph → Prop} (endures : Endures holds) (kept : holds g)

include endures kept

theorem create (r : Register) : holds ((create r).leaves g) := by
  unfold ChainGraph.create
  split
  · exact endures.ensure r kept
  · exact kept

theorem demandParity (id : NodeId) (parity : Parity) (must : Bool) :
    holds ((demandParity id parity must).leaves g) := by
  unfold ChainGraph.demandParity
  split
  · exact kept
  · refine leaves_bind kept fun seen here ran => ?_
    obtain ⟨rfl, rfl⟩ := yields_get.mp ran
    refine leaves_bind (by rw [leaves_lift]; exact kept) fun n now ran' => ?_
    obtain ⟨_, rfl⟩ := yields_lift.mp ran'
    exact endures.setParity id parity must kept

theorem commitLinks (via : Bool) (regs : List Register) :
    holds ((commitLinks via regs).leaves g) := by
  induction regs generalizing g with
  | nil => exact kept
  | cons head rest ih =>
    cases rest with
    | nil => exact kept
    | cons next rest =>
      have linked := endures.demand head next via kept
      refine leaves_bind linked fun made now ran => ?_
      obtain ⟨rfl, rfl⟩ := apply_yields.mp ran
      split
      · exact ih linked
      · exact linked

theorem commitParity (regs : List Register) (parity : Parity) :
    holds ((commitParity regs parity).leaves g) := by
  unfold ChainGraph.commitParity
  cases regs with
  | nil => exact kept
  | cons head rest =>
    simp only
    split
    · exact kept
    · refine leaves_bind (endures.create kept head) fun id now ran => ?_
      have created : holds now := ran.leaves_eq ▸ endures.create kept head
      refine leaves_bind (endures.demandParity created id parity true) fun granted last ran' => ?_
      have demanded : holds last := ran'.leaves_eq ▸ endures.demandParity created id parity true
      split
      · exact demanded
      · exact demanded

theorem commit (regs : List Register) (parity : Parity) (via : Bool) :
    holds ((commit regs parity via).leaves g) := by
  unfold ChainGraph.commit
  split
  · have links := endures.commitLinks kept via regs
    refine leaves_bind links fun _ now ran => ?_
    have linked : holds now := ran.leaves_eq ▸ links
    exact endures.commitParity linked regs parity
  · split
    · exact kept
    · exact kept

end Endures

theorem endures_evolves (start : ChainGraph) : Endures start.Evolves where
  ensure r evolves := evolves.trans (evolves.sound.evolves_ensure r)
  demand lo hi via evolves := evolves.trans (evolves.sound.evolves_link lo hi true via (.inl rfl))
  setParity id parity must evolves :=
    evolves.trans ((evolves.sound.settles_setParity id parity must).evolves evolves.sound)

theorem Sound.evolves_commitLinks (sound : g.Sound) (via : Bool) (regs : List Register) :
    g.Evolves ((commitLinks via regs).leaves g) :=
  (endures_evolves g).commitLinks sound.evolves_refl via regs

theorem create_yields : (create r).Yields g id after ↔ r.isVirtual = true ∧
      id = (g.ensure r).result ∧ after = (g.ensure r).graph := by
  unfold create
  split
  · next virt =>
    rw [apply_yields]
    simp [virt]
  · next notVirtual =>
    simp only [notVirtual, Bool.false_eq_true, false_and, iff_false]
    exact not_yields_breach

theorem Sound.evolves_create (sound : g.Sound) (r : Register) : g.Evolves ((create r).leaves g) :=
  (endures_evolves g).create sound.evolves_refl r

theorem demandParity_yields :
    (demandParity id parity must).Yields g granted after ↔
    (parity = .any ∧ granted = true ∧ after = g) ∨
      (parity ≠ .any ∧ (∃ n, g.node? id = some n) ∧ granted = (g.setParity id parity must).1 ∧
        after = (g.setParity id parity must).2) := by
  unfold demandParity
  by_cases free : parity = .any
  · subst free
    simp only [Parity.isAny, beq_self_eq_true, if_true, ne_eq, not_true_eq_false, false_and,
      or_false, true_and]
    exact yields_pure
  · have asked : ¬ parity.isAny = true := fun isAny => free (Parity.isAny_iff.mp isAny)
    rw [if_neg asked, yields_get_bind, yields_lift_bind]
    simp only [node_eq_ok, yields_modifyGet, free, false_and, false_or, ne_eq,
      not_false_eq_true, true_and, exists_and_right]

section

variable (sound : g.Sound)

include sound

theorem Sound.evolves_demandParity (id : NodeId) (parity : Parity) (must : Bool) :
    g.Evolves ((demandParity id parity must).leaves g) :=
  (endures_evolves g).demandParity sound.evolves_refl id parity must

/-- A parity that is granted leaves the links alone, and the register has it. -/
theorem Sound.demandParity_granted (named : g.find r = some id)
    (ran : (demandParity id parity must).Yields g true after) :
    g.Settles after ∧ (parity ≠ .any → after.parityOf r = parity) := by
  rcases demandParity_yields.mp ran with ⟨rfl, _, rfl⟩ | ⟨demanded, ⟨n, found⟩, granted, rfl⟩
  · exact ⟨sound.settles_refl, fun demanded => absurd rfl demanded⟩
  · by_cases free : n.parity = .any ∨ n.parity = parity
    · obtain ⟨settles, n', found', parity'⟩ := sound.setParity_granted found demanded must free
      refine ⟨settles, fun _ => ?_⟩
      rw [parityOf_of_find ((settles.find sound r).trans named) found', parity']
    · rw [setParity_of_ne found demanded must free] at granted
      cases granted

/-- A parity that is demanded of a register changes no parity outside of its chain. -/
theorem Sound.demandParity_apart (named : g.find r = some id) {pre post : List Register}
    (run : IsRun (g.Follows false) (pre ++ r :: post))
    (ran : (demandParity id parity must).Yields g granted after) {other : Register}
    (apart : other ∉ pre ++ r :: post) : after.parityOf other = g.parityOf other := by
  rcases demandParity_yields.mp ran with ⟨_, _, rfl⟩ | ⟨demanded, ⟨n, found⟩, _, rfl⟩
  · rfl
  by_cases free : n.parity = .any ∨ n.parity = parity
  · obtain ⟨front, back, nodes, frontNames, backNames, _⟩ := sound.nodes_of_run named run
    obtain ⟨_, flag, recast⟩ := sound.recast_setParity found demanded must free nodes
    cases known : g.find other with
    | none => rw [parityOf_of_none known, parityOf_of_none ((recast.find other).trans known)]
    | some node =>
      obtain ⟨n', found', _⟩ := sound.live_of_find known
      have outside : node ∉ front ++ id :: back := by
        intro mem
        refine apart ?_
        rw [← frontNames, ← backNames, ← sound.registerOf_find named,
          ← sound.registerOf_find known, ← map_cons, ← map_append]
        exact mem_map_of_mem mem
      rw [parityOf_of_find known found',
        parityOf_of_find ((recast.find other).trans known) (recast.some found'),
        alternateNode_of_not_mem outside]
  · rw [setParity_of_ne found demanded must free]

theorem Sound.evolves_commitParity (regs : List Register) (parity : Parity) :
    g.Evolves ((commitParity regs parity).leaves g) :=
  (endures_evolves g).commitParity sound.evolves_refl regs parity

/-- A commit only adds constraints, whether it ends or stops. -/
theorem Sound.evolves_commit (regs : List Register) (parity : Parity) (via : Bool) :
    g.Evolves ((commit regs parity via).leaves g) :=
  (endures_evolves g).commit sound.evolves_refl regs parity via

end

/-! ### What a commit that ends has made sure of -/

/-- The registers of a run have to be consecutive, and the first one has the parity. -/
def RunHolds (g : ChainGraph) (regs : List Register) (parity : Parity) : Prop :=
  regs.IsChain (g.Follows true) ∧ ∀ first ∈ regs.head?, parity ≠ .any → g.parityOf first = parity

theorem commitLinks_cons_yields {a b : Register} {rest : List Register} :
    (commitLinks via (a :: b :: rest)).Yields g () after ↔ (g.link a b true via).result = true ∧
      (commitLinks via (b :: rest)).Yields (g.link a b true via).graph () after := by
  rw [commitLinks, yields_bind]
  constructor
  · rintro ⟨_, _, links, later⟩
    obtain ⟨rfl, rfl⟩ := apply_yields.mp links
    split at later
    · next made => exact ⟨made, later⟩
    · exact absurd later not_yields_contradict
  · rintro ⟨made, later⟩
    exact ⟨true, _, apply_yields.mpr ⟨made.symm, rfl⟩, later⟩

theorem Sound.commitLinks_yields (sound : g.Sound)
    (ran : (commitLinks via regs).Yields g () after) : regs.IsChain (after.Follows true) := by
  induction regs generalizing g with
  | nil => exact isChain_nil
  | cons head rest ih =>
    cases rest with
    | nil => exact isChain_singleton head
    | cons next rest =>
      obtain ⟨made, ranRest⟩ := commitLinks_cons_yields.mp ran
      have ties := (sound.link head next true via).1 made
      have tied := (ties.demands head next).mpr (.inr ⟨rfl, rfl, rfl⟩)
      have later : Evolves _ after :=
        ranRest.leaves_eq ▸ ties.sound.evolves_commitLinks via (next :: rest)
      refine List.IsChain.cons_cons ?_ (ih ties.sound ranRest)
      exact later.grows.follows ties.sound.toShaped later.sound.toShaped tied

/-- Nothing is demanded of a run, or the parity is granted to the node of its first register. -/
theorem commitParity_cases (ran : (commitParity regs parity).Yields g () after) :
    (after = g ∧ (regs = [] ∨ parity = .any)) ∨ ∃ head rest, regs = head :: rest ∧
      (demandParity (g.ensure head).result parity true).Yields
        (g.ensure head).graph true after := by
  unfold commitParity at ran
  split at ran
  · exact .inl ⟨(yields_pure.mp ran).2, .inl rfl⟩
  · next head rest =>
    split at ran
    · next isAny => exact .inl ⟨(yields_pure.mp ran).2, .inr (Parity.isAny_iff.mp isAny)⟩
    · obtain ⟨id, mid, created, demands⟩ := yields_bind.mp ran
      obtain ⟨_, rfl, rfl⟩ := create_yields.mp created
      obtain ⟨granted, last, grants, ending⟩ := yields_bind.mp demands
      split at ending
      · exact absurd ending not_yields_contradict
      · next accepted =>
        obtain ⟨_, rfl⟩ := yields_pure.mp ending
        rw [Bool.not_eq_true, Bool.not_eq_false'] at accepted
        subst accepted
        exact .inr ⟨head, rest, rfl, grants⟩

theorem Sound.find_ensure (sound : g.Sound) (r : Register) :
    (g.ensure r).graph.find r = some (g.ensure r).result := by
  rw [(sound.equipped_ensure r).find, if_pos rfl]

theorem Sound.commitParity_yields (sound : g.Sound)
    (ran : (commitParity regs parity).Yields g () after) :
    ∀ first ∈ regs.head?, parity ≠ .any → after.parityOf first = parity := by
  intro first starts demanded
  rcases commitParity_cases ran with ⟨_, rfl | isAny⟩ | ⟨first, rest, rfl, grants⟩
  · cases starts
  · exact absurd isAny demanded
  · cases starts
    have equips := sound.equipped_ensure first
    exact (equips.sound.demandParity_granted (sound.find_ensure first) grants).2 demanded

/-- A run that is committed holds, or it names hardware registers and nothing is recorded. -/
theorem Sound.commit_yields (sound : g.Sound) (ran : (commit regs parity via).Yields g () after) :
    g.Evolves after ∧
      ((regs.all (·.isVirtual) = true ∧ after.RunHolds regs parity) ∨
        (regs.all (·.hardwareBank.isSome) = true ∧ after = g)) := by
  refine ⟨ran.leaves_eq ▸ sound.evolves_commit regs parity via, ?_⟩
  unfold commit at ran
  split at ran
  · next virt =>
    obtain ⟨_, mid, links, parities⟩ := yields_bind.mp ran
    have evolves : g.Evolves mid := links.leaves_eq ▸ sound.evolves_commitLinks via regs
    have evolves' : mid.Evolves after :=
      parities.leaves_eq ▸ evolves.sound.evolves_commitParity regs parity
    refine .inl ⟨virt, (sound.commitLinks_yields links).imp fun _ _ => ?_,
      evolves.sound.commitParity_yields parities⟩
    exact evolves'.grows.follows evolves.sound.toShaped evolves'.sound.toShaped
  · split at ran
    · next numbered =>
      obtain ⟨_, rfl⟩ := yields_pure.mp ran
      exact .inr ⟨numbered, rfl⟩
    · exact absurd ran not_yields_breach

/-! ### Registers that get a node -/

/-- Registers that have a node afterwards had one before or are among these. -/
def Introduces (g after : ChainGraph) (regs : List Register) : Prop :=
  ∀ r, after.find r ≠ none → g.find r ≠ none ∨ r ∈ regs

namespace Introduces

variable {last : ChainGraph} {regs others : List Register}

theorem of_find_eq (same : ∀ r, after.find r = g.find r) :
    g.Introduces after [] := fun r known => .inl (same r ▸ known)

theorem trans (first : g.Introduces after regs) (second : after.Introduces last others) :
    g.Introduces last (regs ++ others) := by
  intro r known
  rcases second r known with pre | new
  · exact (first r pre).imp_right (mem_append_left _)
  · exact .inr (mem_append_right _ new)

theorem mono (introduces : g.Introduces after regs) (sub : ∀ r ∈ regs, r ∈ others) :
    g.Introduces after others :=
  fun r known => (introduces r known).imp_right (sub r)

end Introduces

theorem Equipped.introduces (equipped : g.Equipped after r id) : g.Introduces after [r] := by
  intro one known
  rw [equipped.find] at known
  split at known
  · next same => exact .inr (mem_singleton.mpr same)
  · exact .inl known

theorem Sound.introduces_commitLinks (sound : g.Sound)
    (ran : (commitLinks via regs).Yields g () after) : g.Introduces after regs := by
  induction regs generalizing g with
  | nil =>
    obtain ⟨_, rfl⟩ := yields_pure.mp ran
    exact .of_find_eq fun _ => rfl
  | cons head rest ih =>
    cases rest with
    | nil =>
      obtain ⟨_, rfl⟩ := yields_pure.mp ran
      exact fun _ known => .inl known
    | cons next rest =>
      obtain ⟨made, later⟩ := commitLinks_cons_yields.mp ran
      have ties := (sound.link head next true via).1 made
      intro r known
      rcases ih ties.sound later r known with pre | new
      · refine ((ties.known r).mp pre).imp_right ?_
        rintro (rfl | rfl)
        · exact mem_cons_self
        · exact mem_cons_of_mem _ mem_cons_self
      · exact .inr (mem_cons_of_mem _ new)

theorem Sound.introduces_commitParity (sound : g.Sound)
    (ran : (commitParity regs parity).Yields g () after) : g.Introduces after regs := by
  rcases commitParity_cases ran with ⟨rfl, _⟩ | ⟨head, rest, rfl, grants⟩
  · exact fun _ known => .inl known
  · have equips := sound.equipped_ensure head
    have settles := (equips.sound.demandParity_granted (sound.find_ensure head) grants).1
    refine (equips.introduces.trans (.of_find_eq (settles.find equips.sound))).mono ?_
    intro r mem
    rw [append_nil, mem_singleton] at mem
    exact mem ▸ mem_cons_self

/-- A commit gives a node to registers of the run only. -/
theorem Sound.introduces_commit (sound : g.Sound)
    (ran : (commit regs parity via).Yields g () after) : g.Introduces after regs := by
  unfold commit at ran
  split at ran
  · obtain ⟨_, mid, links, parities⟩ := yields_bind.mp ran
    have evolves : g.Evolves mid := links.leaves_eq ▸ sound.evolves_commitLinks via regs
    refine ((sound.introduces_commitLinks links).trans
      (evolves.sound.introduces_commitParity parities)).mono fun r mem => ?_
    exact (mem_append.mp mem).elim id id
  · split at ran
    · obtain ⟨_, rfl⟩ := yields_pure.mp ran
      exact fun _ known => .inl known
    · exact absurd ran not_yields_breach

/-! ### Writing on nodes -/

variable {mid : ChainGraph} {change : Node → Node}

/-- A change of a node that only writes its pin or what it carries. -/
structure Labels (change : Node → Node) : Prop extends Steady change where
  optionalLink : ∀ node, (change node).optionalLink = node.optionalLink := by intro; rfl
  instructionLinked : ∀ node, (change node).instructionLinked = node.instructionLinked := by
    intro; rfl

theorem Sound.label (sound : g.Sound) (labels : Labels change) (id : NodeId) :
    (g.update id change).Sound := by
  refine sound.steady labels.toSteady fun n found last => ?_
  rw [labels.optionalLink, labels.instructionLinked]
  exact sound.ended id n found last

theorem Labels.follows_iff (labels : Labels change) (sound : g.Sound) (id : NodeId) (must : Bool)
    (lo hi : Register) : (g.update id change).Follows must lo hi ↔ g.Follows must lo hi :=
  labels.toSteady.follows_iff sound.pool fun _ => labels.optionalLink

theorem Sound.pinAt_update (sound : g.Sound) (id : NodeId) (change : Node → Node) (r : Register) :
    (g.update id change).pinAt r =
      if g.find r = some id then (g.node? id).bind fun n => (change n).pin
      else g.pinAt r := by
  have recast := recast_update sound.pool id change
  unfold pinAt pinOf
  rw [recast.find]
  cases known : g.find r with
  | none => simp
  | some one =>
    rw [Option.bind_some, Option.bind_some, recast.node]
    by_cases same : one = id
    · subst same
      rw [if_pos rfl]
      cases g.node? one with
      | none => rfl
      | some n => simp
    · have apart : ¬ some one = some id := fun equal => same (Option.some_inj.mp equal)
      rw [if_neg apart]
      cases g.node? one with
      | none => rfl
      | some n => simp [same]

/-! ### Graphs with the same constraints -/

/-- Two graphs constrain registers in the same way. -/
structure Alike (g after : ChainGraph) : Prop where
  sound : after.Sound
  limits : after.limits = g.limits
  follows : ∀ mustOnly low high, after.Follows mustOnly low high ↔ g.Follows mustOnly low high
  parity : ∀ reg, after.parityOf reg = g.parityOf reg
  pin : ∀ reg, after.pinAt reg = g.pinAt reg

theorem Sound.alike_refl (sound : g.Sound) : g.Alike g :=
  ⟨sound, rfl, fun _ _ _ => Iff.rfl, fun _ => rfl, fun _ => rfl⟩

namespace Alike

theorem trans (first : g.Alike mid) (second : mid.Alike after) : g.Alike after where
  sound := second.sound
  limits := second.limits.trans first.limits
  follows must lo hi :=
    (second.follows must lo hi).trans (first.follows must lo hi)
  parity r := (second.parity r).trans (first.parity r)
  pin r := (second.pin r).trans (first.pin r)

theorem limit (alike : g.Alike after) (bank : Bank) : after.limit bank = g.limit bank := by
  rw [ChainGraph.limit, alike.limits, ChainGraph.limit]

theorem bankAmong (alike : g.Alike after) (regs : List Register) :
    after.bankAmong regs = g.bankAmong regs :=
  bankAmong_congr fun r _ => alike.pin r

theorem bounded (alike : g.Alike after) (bounded : g.Bounded) : after.Bounded := by
  have same : after.Follows = g.Follows := by
    funext must lo hi
    exact propext (alike.follows must lo hi)
  refine ⟨?_, ?_, ?_, ?_⟩
  · intro ms run
    rw [same] at run
    rw [alike.bankAmong, alike.limit]
    exact bounded.room ms run
  · intro ms run r mem pin isPin
    rw [same] at run
    rw [alike.pin] at isPin
    rw [alike.bankAmong]
    exact bounded.uniform ms run r mem pin isPin
  · intro lo hi follows optional
    rw [same] at follows optional
    rw [alike.pin, alike.pin]
    exact bounded.pinned lo hi follows optional
  · intro lo hi follows a b
    rw [same] at follows
    rw [alike.pin, alike.pin]
    exact bounded.adjacent lo hi follows a b

end Alike

theorem Sound.alike_ensure (sound : g.Sound) (r : Register) : g.Alike (g.ensure r).graph := by
  have equips := sound.equipped_ensure r
  exact ⟨equips.sound, equips.grows.limits, equips.follows, equips.parity,
    equips.grows.pinAt sound.toShaped equips.sound.toShaped⟩

theorem Sound.alike_create {r : Register} {id : NodeId} (sound : g.Sound)
    (ran : (create r).Yields g id after) : g.Alike after := by
  obtain ⟨_, _, rfl⟩ := create_yields.mp ran
  exact sound.alike_ensure r

theorem Sound.alike_label (sound : g.Sound) (labels : Labels change)
    (pin : ∀ n, (change n).pin = n.pin) (id : NodeId) : g.Alike (g.update id change) where
  sound := sound.label labels id
  limits := rfl
  follows := labels.follows_iff sound id
  parity := labels.toSteady.parityOf sound.pool
  pin r := by
    rw [sound.pinAt_update]
    split
    · next known =>
      rw [pinAt, known, Option.bind_some, pinOf]
      simp only [pin]
    · rfl

/-! ### Constraints that only grow -/

/-- What the steps of a resolution keep: pins, parities that are fixed, and mandatory links. -/
structure Refines (g after : ChainGraph) : Prop where
  sound : after.Sound
  limits : after.limits = g.limits
  pin : ∀ reg, after.pinAt reg = g.pinAt reg
  parity : ∀ reg, g.parityOf reg ≠ .any → after.parityOf reg = g.parityOf reg
  demands : ∀ low high, g.Follows true low high → after.Follows true low high
  bounded : g.Bounded → after.Bounded

theorem Sound.refines_refl (sound : g.Sound) : g.Refines g :=
  ⟨sound, rfl, fun _ => rfl, fun _ _ => rfl, fun _ _ demanded => demanded, fun bounded => bounded⟩

theorem Refines.trans (first : g.Refines mid) (second : mid.Refines after) : g.Refines after where
  sound := second.sound
  limits := second.limits.trans first.limits
  pin r := (second.pin r).trans (first.pin r)
  parity r fixed := by
    have kept := first.parity r fixed
    rw [second.parity r (by rw [kept]; exact fixed), kept]
  demands lo hi demanded := second.demands lo hi (first.demands lo hi demanded)
  bounded holds := second.bounded (first.bounded holds)

theorem Alike.refines (alike : g.Alike after) : g.Refines after where
  sound := alike.sound
  limits := alike.limits
  pin := alike.pin
  parity r _ := alike.parity r
  demands lo hi demanded := (alike.follows true lo hi).mpr demanded
  bounded := alike.bounded

theorem Evolves.refines (evolves : g.Evolves after) (sound : g.Sound) : g.Refines after where
  sound := evolves.sound
  limits := evolves.grows.limits
  pin := evolves.grows.pinAt sound.toShaped evolves.sound.toShaped
  parity _ := evolves.grows.parityOf sound.toShaped evolves.sound.toShaped
  demands _ _ := evolves.grows.follows sound.toShaped evolves.sound.toShaped
  bounded := evolves.bounded

theorem RunHolds.refines {regs : List Register} {parity : Parity} (holds : g.RunHolds regs parity)
    (refines : g.Refines after) : after.RunHolds regs parity := by
  refine ⟨holds.1.imp refines.demands, fun first starts demanded => ?_⟩
  have pre := holds.2 first starts demanded
  rw [refines.parity first (by rw [pre]; exact demanded), pre]

end ChainGraph

end RegisterChains

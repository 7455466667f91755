/-
This file sees a graph as a set of chains, each of them a list of registers whose links are
mandatory or optional, and says what a link does to that set. A link that is refused changes
nothing. One that is made appends the chain that begins with the second register to the chain
that ends with the first, once the optional links in the way are cut; one that is there already
is strengthened. Which pieces a cut leaves is read off the old chain alone.
-/

import RegisterChains.Machine
import RegisterChains.Proofs.Chain.Upkeep

namespace RegisterChains

namespace ChainGraph

open List

variable {graph after : ChainGraph} {lo hi r next other : Register} {mandatory via must : Bool}
  {row : List Place} {ms regs among pre : List Register} {id : NodeId} {n : Node} {edit : Edit Bool}

/-! ### Graphs as sets of chains -/

/-- A register of a chain, and whether the link behind it is only a preference. -/
structure Place where
  register : Register
  optional : Bool
deriving DecidableEq, Repr

/-- The chains of a graph, each from its head on. -/
def chains (graph : ChainGraph) : List (List Place) :=
  graph.heads.map fun head =>
    (graph.chain head).map fun id => ⟨graph.registerOf id, graph.optionalAfter id⟩

/-- A register with what is known of the link behind it. -/
def placeOf (graph : ChainGraph) (r : Register) : Place :=
  ⟨r, (graph.find r).any graph.optionalAfter⟩

/-- The chains of a graph, with a chain of its own for each of some registers that has no
node. -/
def admitted (graph : ChainGraph) (regs : List Register) : List (List Place) :=
  graph.chains ++ (regs.filter fun r => graph.find r = none).map fun r => [⟨r, false⟩]

theorem admitted_nil : graph.admitted [] = graph.chains := append_nil _

/-- Registers that make up a chain, each with a node or among some others. -/
structure Whole (graph : ChainGraph) (regs members : List Register) : Prop where
  run : IsRun (graph.Follows false) members
  known : ∀ reg ∈ members, graph.find reg ≠ none ∨ reg ∈ regs

theorem map_register_placeOf (ms : List Register) :
    (ms.map graph.placeOf).map (·.register) = ms := by
  rw [map_map]
  exact map_id' ms

theorem placeOf_injective : Function.Injective graph.placeOf := fun _ _ same =>
  congrArg Place.register same

/-- A chain on which one register has a node has nodes only. -/
theorem whole_of_mem (run : IsRun (graph.Follows false) ms) (isMem : r ∈ ms)
    (known : graph.find r ≠ none ∨ r ∈ regs) : graph.Whole regs ms := by
  refine ⟨run, fun one mem => ?_⟩
  rcases run.alone_or_related mem with alone | ⟨next, follows⟩ | ⟨prev, follows⟩
  · rw [alone, mem_singleton] at isMem
    rwa [← isMem]
  · exact .inl fun unknown => (Shaped.not_follows_of_none unknown next).1 follows
  · exact .inl fun unknown => (Shaped.not_follows_of_none unknown prev).2 follows

section

variable (shaped : graph.Shaped)

include shaped

theorem Shaped.mem_chains :
    row ∈ graph.chains ↔ ∃ ms, graph.Whole [] ms ∧ row = ms.map graph.placeOf := by
  have placed : ∀ id n, graph.node? id = some n →
      graph.placeOf (graph.registerOf id) = ⟨graph.registerOf id, graph.optionalAfter id⟩ := by
    intro id n found
    rw [placeOf, shaped.find_registerOf ⟨n, found⟩]
    rfl
  unfold chains
  rw [mem_map]
  constructor
  · rintro ⟨head, isHead, rfl⟩
    obtain ⟨rest, isChain, run⟩ := shaped.run_of_head isHead
    obtain ⟨node, isFirst, _⟩ := (shaped.heads head).mp isHead
    have live : ∀ id ∈ head :: rest, ∃ n, graph.node? id = some n := fun _ isMem =>
      shaped.live_of_mem run isFirst mem_cons_self isMem
    refine ⟨_, ⟨shaped.run_registers run live, ?_⟩, ?_⟩
    · intro r isMem
      obtain ⟨id, mem, rfl⟩ := mem_map.mp isMem
      rw [shaped.find_registerOf (live id mem)]
      exact .inl (Option.some_ne_none id)
    · rw [isChain, map_map]
      refine map_congr_left fun id mem => ?_
      obtain ⟨n, found⟩ := live id mem
      exact (placed id n found).symm
  · rintro ⟨ms, ⟨run, known⟩, rfl⟩
    obtain ⟨first, rest, rfl⟩ := exists_cons_of_ne_nil run.nonempty
    obtain ⟨head, isHead⟩ := Option.ne_none_iff_exists'.mp
      ((known first mem_cons_self).resolve_right not_mem_nil)
    have starts : IsRun (graph.Follows false) ([] ++ first :: rest) := run
    obtain ⟨front, back, nodes, none, names, live⟩ := shaped.nodes_of_run isHead starts
    obtain rfl := map_eq_nil_iff.mp none
    obtain ⟨n, found, _⟩ := shaped.live_of_find isHead
    refine ⟨head, shaped.mem_heads_of_run nodes found, ?_⟩
    have listed : first :: rest = (head :: back).map graph.registerOf := by
      rw [map_cons, names, shaped.registerOf_find isHead]
    rw [shaped.chain_eq found nodes, listed, map_map]
    refine map_congr_left fun id mem => ?_
    obtain ⟨n, found⟩ := live id mem
    exact (placed id n found).symm

theorem Shaped.mem_admitted :
    row ∈ graph.admitted regs ↔ ∃ ms, graph.Whole regs ms ∧ row = ms.map graph.placeOf := by
  have alone : ∀ r, graph.find r = none → [graph.placeOf r] = [⟨r, false⟩] := by
    intro r unknown
    rw [placeOf, unknown]
    rfl
  unfold admitted
  rw [mem_append, shaped.mem_chains, mem_map]
  constructor
  · rintro (⟨ms, whole, rfl⟩ | ⟨r, mem, rfl⟩)
    · exact ⟨ms,
        ⟨whole.run, fun r mem => (whole.known r mem).imp_right (absurd · not_mem_nil)⟩, rfl⟩
    · obtain ⟨listed, unknown⟩ := mem_filter.mp mem
      rw [decide_eq_true_eq] at unknown
      exact ⟨[r], ⟨Shaped.run_of_none unknown, forall_mem_singleton.mpr (.inr listed)⟩,
        (alone r unknown).symm⟩
  · rintro ⟨ms, whole, rfl⟩
    by_cases named : ∀ r ∈ ms, graph.find r ≠ none
    · exact .inl ⟨ms, ⟨whole.run, fun r mem => .inl (named r mem)⟩, rfl⟩
    · push Not at named
      obtain ⟨r, mem, unknown⟩ := named
      refine .inr ⟨r, mem_filter.mpr ⟨(whole.known r mem).resolve_left fun found => found unknown,
        decide_eq_true unknown⟩, ?_⟩
      rw [shaped.eq_of_none whole.run unknown mem]
      exact (alone r unknown).symm

/-- The link behind a register is optional if there is one and it is not mandatory. -/
theorem Shaped.optional_placeOf : (graph.placeOf r).optional = true ↔
      ∃ next, graph.Follows false r next ∧ ¬ graph.Follows true r next := by
  unfold placeOf
  constructor
  · intro optional
    cases known : graph.find r with
    | none =>
      rw [known] at optional
      cases optional
    | some id =>
      obtain ⟨n, found, _⟩ := shaped.live_of_find known
      rw [known, Option.any_some, optionalAfter, found, Option.any_some] at optional
      cases onward : n.next with
      | none =>
        rw [(shaped.ended id n found onward).1] at optional
        cases optional
      | some next =>
        have follows := shaped.follows_registerOf (leads_next found onward)
        rw [shaped.registerOf_find known] at follows
        refine ⟨_, follows, ?_⟩
        rintro ⟨first, _, known', _, n', found', _, needed⟩
        cases known.symm.trans known'
        cases found.symm.trans found'
        rw [needed rfl] at optional
        cases optional
  · rintro ⟨next, ⟨a, b, known, named, n, found, onward, _⟩, loose⟩
    rw [known, Option.any_some, optionalAfter, found, Option.any_some]
    by_contra firm
    rw [Bool.not_eq_true] at firm
    exact loose ⟨a, b, known, named, n, found, onward, fun _ => firm⟩

theorem Shaped.placeOf_eq (firm : ∀ next, graph.Follows false r next → graph.Follows true r next) :
    graph.placeOf r = ⟨r, false⟩ := by
  refine congrArg (Place.mk r) ?_
  rw [Bool.eq_false_iff]
  intro optional
  obtain ⟨next, follows, loose⟩ := shaped.optional_placeOf.mp optional
  exact loose (firm next follows)

theorem Shaped.optional_of_follows (follows : graph.Follows false r next) :
    (!(graph.placeOf r).optional) = true ↔ graph.Follows true r next := by
  rw [Bool.not_eq_true', Bool.eq_false_iff, Ne, shaped.optional_placeOf]
  constructor
  · intro firm
    by_contra loose
    exact firm ⟨next, follows, loose⟩
  · rintro firm ⟨next', follows', loose⟩
    cases shaped.follows_rightUnique false follows follows'
    exact loose firm

/-- A place is the same in two graphs in which the same links are behind it. -/
theorem Shaped.placeOf_congr (shaped' : after.Shaped)
    (same : ∀ must next, after.Follows must r next ↔ graph.Follows must r next) :
    after.placeOf r = graph.placeOf r := by
  refine congrArg (Place.mk r) (Bool.eq_iff_iff.mpr ?_)
  refine shaped'.optional_placeOf.trans (Iff.trans ?_ shaped.optional_placeOf.symm)
  simp only [same]

/-- The chains do not change if the links do not, but for nodes of registers that had none. -/
theorem Shaped.mem_chains_congr (shaped' : after.Shaped)
    (known : ∀ r, after.find r ≠ none ↔ graph.find r ≠ none ∨ r ∈ regs)
    (follows : after.Follows false = graph.Follows false) {change : Place → Place}
    (places : ∀ r, after.placeOf r = change (graph.placeOf r)) :
    row ∈ after.chains ↔ row ∈ (graph.admitted regs).map (List.map change) := by
  have rows : ∀ ms : List Register, ms.map after.placeOf = (ms.map graph.placeOf).map change := by
    intro ms
    rw [map_map]
    exact map_congr_left fun r _ => places r
  have whole : ∀ ms, after.Whole [] ms ↔ graph.Whole regs ms := by
    intro ms
    constructor
    · rintro ⟨run, named⟩
      exact ⟨follows ▸ run, fun r mem => (known r).mp ((named r mem).resolve_right not_mem_nil)⟩
    · rintro ⟨run, named⟩
      exact ⟨follows ▸ run, fun r mem => .inl ((known r).mpr (named r mem))⟩
  rw [shaped'.mem_chains, mem_map]
  constructor
  · rintro ⟨ms, isWhole, rfl⟩
    exact ⟨_, shaped.mem_admitted.mpr ⟨ms, (whole ms).mp isWhole, rfl⟩, (rows ms).symm⟩
  · rintro ⟨row', isRow, rfl⟩
    obtain ⟨ms, isWhole, rfl⟩ := shaped.mem_admitted.mp isRow
    exact ⟨ms, (whole ms).mpr isWhole, (rows ms).symm⟩

end

/-! ### Cutting chains -/

/-- What is left of a chain when its optional links are cut. -/
def pieces (row : List Place) : List (List Place) :=
  (row.splitBy fun place _ => !place.optional).map fun piece =>
    piece.map fun place => { place with optional := false }

/-- A chain is cut if it has one of some registers. -/
def severed (among : List Register) (row : List Place) : List (List Place) :=
  if row.any fun place => place.register ∈ among then pieces row else [row]

theorem splitBy_map {α β : Type} (f : α → β) (test : β → β → Bool) (list : List α) :
    (list.map f).splitBy test =
      (list.splitBy fun a b => test (f a) (f b)).map (List.map f) := by
  refine splitBy_eq_iff.mpr ⟨?_, ?_, ?_, ?_⟩
  · rw [← map_flatten, flatten_splitBy]
  · simp
  · intro piece isMem
    obtain ⟨part, mem, rfl⟩ := mem_map.mp isMem
    rw [isChain_map]
    exact isChain_of_mem_splitBy mem
  · rw [isChain_map]
    refine (isChain_getLast_head_splitBy _ list).imp ?_
    rintro a b ⟨filled, filled', fails⟩
    exact ⟨by simpa using filled, by simpa using filled', by simpa using fails⟩

theorem pieces_map_placeOf (ms : List Register) : pieces (ms.map graph.placeOf) =
      (ms.splitBy fun r _ => !(graph.placeOf r).optional).map (List.map fun r => ⟨r, false⟩) := by
  unfold pieces
  rw [splitBy_map, map_map]
  refine map_congr_left fun piece _ => ?_
  rw [Function.comp_apply, map_map]
  rfl

theorem any_map_placeOf :
    (ms.map graph.placeOf).any (fun place => place.register ∈ among) = true ↔
    ∃ r ∈ among, r ∈ ms := by
  simp only [any_map, any_eq_true, Function.comp_apply, decide_eq_true_eq]
  exact ⟨fun ⟨r, mem, isMem⟩ => ⟨r, isMem, mem⟩, fun ⟨r, isMem, mem⟩ => ⟨r, mem, isMem⟩⟩

/-- The optional links are cut on the chains that have one of some registers, and on no
other. -/
structure Severs (graph after : ChainGraph) (among : List Register) : Prop where
  shaped : after.Shaped
  known : ∀ reg, after.find reg ≠ none ↔ graph.find reg ≠ none
  mandatory : ∀ first second, after.Follows true first second ↔ graph.Follows true first second
  follows : ∀ first second, after.Follows false first second ↔ graph.Follows false first second ∧
      ((∃ reg ∈ among, graph.Chained reg first) → graph.Follows true first second)

namespace Severs

variable {among : List Register} {ms : List Register}

/-- On a chain that is cut, the links that are left are mandatory. -/
theorem placeOf_of_hit (severs : graph.Severs after among)
    (hit : ∃ cut ∈ among, graph.Chained cut r) : after.placeOf r = ⟨r, false⟩ :=
  severs.shaped.placeOf_eq fun next follows =>
    (severs.mandatory r next).mpr (((severs.follows r next).mp follows).2 hit)

/-- The links of a chain that is not cut are as they were. -/
theorem follows_of_missed (severs : graph.Severs after among)
    (missed : ¬ ∃ cut ∈ among, graph.Chained cut r) :
    after.Follows must r next ↔ graph.Follows must r next := by
  cases must with
  | true => exact severs.mandatory r next
  | false =>
    rw [severs.follows]
    exact and_iff_left fun hit => absurd hit missed

theorem chained_hit (shaped : graph.Shaped) (run : IsRun (graph.Follows false) ms) (mem : r ∈ ms) :
    (∃ cut ∈ among, graph.Chained cut r) ↔ ∃ cut ∈ among, cut ∈ ms := by
  simp only [shaped.chained_iff run mem]

section

variable (severs : graph.Severs after among) (shaped : graph.Shaped)

include severs shaped

/-- A chain that is not cut is a chain afterwards. -/
theorem run_of_missed (run : IsRun (graph.Follows false) ms) (missed : ¬ ∃ cut ∈ among, cut ∈ ms) :
    IsRun (after.Follows false) ms ∧ ms.map after.placeOf = ms.map graph.placeOf := by
  have apart : ∀ r ∈ ms, ¬ ∃ cut ∈ among, graph.Chained cut r :=
    fun r mem => (chained_hit shaped run mem).not.mpr missed
  refine ⟨run.congr ?_ ?_, ?_⟩
  · exact fun elem mem next => severs.follows_of_missed (apart elem mem)
  · intro elem mem previous
    constructor
    · exact fun follows => ((severs.follows previous elem).mp follows).1
    · intro follows
      obtain ⟨front, back, split⟩ :=
        run.split_of_previous (shaped.follows_leftUnique false) mem follows
      exact (severs.follows_of_missed (apart previous (by simp [split]))).mpr follows
  · refine map_congr_left fun r mem => ?_
    exact shaped.placeOf_congr severs.shaped fun _ _ => severs.follows_of_missed (apart r mem)

/-- What a cut keeps of a chain. -/
theorem kept_of_hit (run : IsRun (graph.Follows false) ms) (hit : ∃ cut ∈ among, cut ∈ ms)
    (mem : r ∈ ms) (follows : graph.Follows false r next) :
    after.Follows false r next ↔ (!(graph.placeOf r).optional) = true := by
  rw [severs.follows, shaped.optional_of_follows follows, and_iff_right follows]
  exact imp_iff_right ((chained_hit shaped run mem).mpr hit)

/-- The chains after a cut are the pieces of those that are cut, and the others. -/
theorem mem_admitted :
    row ∈ after.admitted regs ↔ row ∈ (graph.admitted regs).flatMap (severed among) := by
  have leftUnique := shaped.follows_leftUnique false
  have rightUnique := shaped.follows_rightUnique false
  have sub : ∀ a b, after.Follows false a b →
      graph.Follows false a b := fun _ _ follows => ((severs.follows _ _).mp follows).1
  rw [severs.shaped.mem_admitted, mem_flatMap]
  constructor
  · rintro ⟨ms, ⟨run, known⟩, rfl⟩
    obtain ⟨head, rest, isRow⟩ := exists_cons_of_ne_nil run.nonempty
    have isMem : head ∈ ms := by simp [isRow]
    obtain ⟨pre, post, old⟩ := shaped.exists_registerRun false head
    have here : head ∈ pre ++ head :: post := by simp
    generalize pre ++ head :: post = all at old here
    have whole := whole_of_mem old here ((known head isMem).imp_left (severs.known head).mp)
    refine ⟨_, shaped.mem_admitted.mpr ⟨all, whole, rfl⟩, ?_⟩
    unfold severed
    split
    · next isHit =>
      have hit := any_map_placeOf.mp isHit
      have piece := old.mem_splitBy leftUnique rightUnique sub
        (fun _ mem _ follows => severs.kept_of_hit shaped old hit mem follows) run isMem here
      rw [pieces_map_placeOf]
      refine mem_map.mpr ⟨ms, piece, map_congr_left fun r mem => ?_⟩
      have within : r ∈ all := by
        rw [← flatten_splitBy (fun r _ => !(graph.placeOf r).optional) all]
        exact mem_flatten.mpr ⟨ms, piece, mem⟩
      exact (severs.placeOf_of_hit ((chained_hit shaped old within).mpr hit)).symm
    · next isMissed =>
      obtain ⟨new, same⟩ := severs.run_of_missed shaped old (any_map_placeOf.not.mp isMissed)
      rw [severs.shaped.eq_of_mem run new isMem here, same]
      exact mem_singleton_self _
  · rintro ⟨row', isRow, isMem⟩
    obtain ⟨all, whole, rfl⟩ := shaped.mem_admitted.mp isRow
    unfold severed at isMem
    split at isMem
    · next isHit =>
      have hit := any_map_placeOf.mp isHit
      rw [pieces_map_placeOf] at isMem
      obtain ⟨ms, piece, rfl⟩ := mem_map.mp isMem
      have within : ∀ r ∈ ms, r ∈ all := by
        intro r mem
        rw [← flatten_splitBy (fun r _ => !(graph.placeOf r).optional) all]
        exact mem_flatten.mpr ⟨ms, piece, mem⟩
      have run := whole.run.splitBy leftUnique rightUnique sub
        (fun _ mem _ follows => severs.kept_of_hit shaped whole.run hit mem follows) piece
      refine ⟨ms, ⟨run, fun r mem => ?_⟩, ?_⟩
      · exact (whole.known r (within r mem)).imp_left (severs.known r).mpr
      · refine map_congr_left fun r mem => ?_
        exact (severs.placeOf_of_hit ((chained_hit shaped whole.run (within r mem)).mpr hit)).symm
    · next isMissed =>
      obtain ⟨new, same⟩ := severs.run_of_missed shaped whole.run (any_map_placeOf.not.mp isMissed)
      exact ⟨all, ⟨new, fun r mem => (whole.known r mem).imp_left (severs.known r).mpr⟩,
        (mem_singleton.mp isMem).trans same.symm⟩

end

/-- Cutting the chains of some registers and then those of others cuts the chains of both. -/
theorem trans {mid : ChainGraph} {others : List Register} (first : graph.Severs mid among)
    (second : mid.Severs after others) (shaped : graph.Shaped) :
    graph.Severs after (among ++ others) where
  shaped := second.shaped
  known r := (second.known r).trans (first.known r)
  mandatory lo hi := (second.mandatory lo hi).trans (first.mandatory lo hi)
  follows lo hi := by
    rw [second.follows, first.follows, first.mandatory, and_assoc]
    refine and_congr_right fun _ => ?_
    rw [← or_imp]
    refine imp_congr_left ?_
    simp only [mem_append, or_and_right, exists_or]
    refine or_congr_right' fun missed => exists_congr fun r => and_congr_right fun _ => ?_
    -- A chain that the first cut misses is the same for the second.
    obtain ⟨pre, post, run⟩ := shaped.exists_registerRun false lo
    have here : lo ∈ pre ++ lo :: post := by simp
    obtain ⟨new, _⟩ := first.run_of_missed shaped run ((chained_hit shaped run here).not.mp missed)
    rw [shaped.chained_iff run here, first.shaped.chained_iff new here]

end Severs

theorem Sound.severs_cleared (sound : graph.Sound) (mandatory : Bool) (r : Register) :
    graph.Severs (graph.cleared mandatory r) (if mandatory then [r] else []) := by
  obtain ⟨trims, _, whole⟩ := sound.trimmed_cleared mandatory r
  refine ⟨trims.sound.toShaped, fun _ => by rw [trims.find], trims.mandatory, ?_⟩
  intro a b
  cases mandatory with
  | false =>
    rw [whole rfl]
    simp
  | true =>
    refine (sound.follows_dropOptionalOf r).trans ?_
    simp

/-- What a link displaces before the two chains are joined. -/
theorem Sound.severs_both (sound : graph.Sound) (mandatory : Bool) (lo hi : Register) :
    graph.Severs ((graph.cleared mandatory lo).cleared mandatory hi)
      (if mandatory then [lo, hi] else []) := by
  obtain ⟨trims, _, _⟩ := sound.trimmed_cleared mandatory lo
  have both := (sound.severs_cleared mandatory lo).trans
    (trims.sound.severs_cleared mandatory hi) sound.toShaped
  cases mandatory with
  | false | true => exact both

/-! ### Joining chains -/

namespace Connects

variable {trimmed equipped : ChainGraph} {pre post : List Register}

section

variable (connects : graph.Connects after lo hi mandatory trimmed equipped pre post)

include connects

theorem find_iff (r : Register) : after.find r ≠ none ↔ equipped.find r ≠ none := by
  rw [connects.ties.known, connects.known]
  tauto

/-- The two chains have no register in common. -/
theorem not_mem_of_mem (mem : r ∈ pre ++ [lo]) : r ∉ hi :: post :=
  fun mem' => connects.apart (connects.sound.eq_of_mem connects.lowRun connects.highRun mem mem')

theorem joinedRun : IsRun (after.Follows false) ((pre ++ [lo]) ++ hi :: post) := by
  refine connects.lowRun.append connects.highRun (by simp) rfl connects.joined ?_ ?_
  · rintro elem starts rfl
    exact connects.not_mem_of_mem (mem_of_mem_head? starts) mem_cons_self
  · rintro elem ends rfl
    exact connects.not_mem_of_mem (by simp) (mem_of_mem_getLast? ends)

theorem placeOf_low : after.placeOf lo = ⟨lo, !mandatory⟩ := by
  have firm := connects.ties.sound.optional_of_follows connects.ties.tied
  have ends : ¬ equipped.Follows true lo hi := fun follows =>
    connects.lowRun.last lo (by simp) hi follows.weaken
  rw [connects.ties.demands, or_iff_right ends, and_iff_left ⟨rfl, rfl⟩] at firm
  refine congrArg (Place.mk lo) ?_
  rw [← Bool.eq_iff_iff.mpr firm, Bool.not_not]
  rfl

/-- Only the first of the two registers has another link behind it. -/
theorem placeOf_of_ne (ne : r ≠ lo) : after.placeOf r = equipped.placeOf r := by
  refine connects.sound.placeOf_congr connects.ties.sound.toShaped fun must next => ?_
  cases must with
  | false =>
    rw [connects.joined]
    exact or_iff_left fun isLow => ne isLow.1
  | true =>
    rw [connects.ties.demands]
    exact or_iff_left fun isLow => ne isLow.2.1

theorem map_placeOf_joined : ((pre ++ [lo]) ++ hi :: post).map after.placeOf =
      pre.map equipped.placeOf ++ ⟨lo, !mandatory⟩ :: (hi :: post).map equipped.placeOf := by
  have distinct := connects.lowRun.nodup (connects.sound.follows_leftUnique false)
  have front : pre.map after.placeOf = pre.map equipped.placeOf := by
    refine map_congr_left fun r mem => connects.placeOf_of_ne ?_
    exact fun isLow => (nodup_append.mp distinct).2.2 r mem lo (by simp) isLow
  have back : (hi :: post).map after.placeOf = (hi :: post).map equipped.placeOf := by
    refine map_congr_left fun r mem => connects.placeOf_of_ne ?_
    rintro rfl
    exact connects.not_mem_of_mem (by simp) mem
  rw [append_assoc, map_append, front, singleton_append, map_cons, connects.placeOf_low, back]

/-- Registers without either of the two make up a chain in both graphs or in none. -/
theorem isRun_iff (noLow : lo ∉ ms) (noHigh : hi ∉ ms) :
    IsRun (after.Follows false) ms ↔ IsRun (equipped.Follows false) ms := by
  have onward : ∀ elem ∈ ms, ∀ next,
      after.Follows false elem next ↔ equipped.Follows false elem next := by
    intro elem mem next
    rw [connects.joined]
    exact or_iff_left fun isLow => noLow (isLow.1 ▸ mem)
  have back : ∀ elem ∈ ms, ∀ previous,
      after.Follows false previous elem ↔ equipped.Follows false previous elem := by
    intro elem mem previous
    rw [connects.joined]
    exact or_iff_left fun isHigh => noHigh (isHigh.2 ▸ mem)
  refine ⟨fun run => run.congr ?_ ?_, fun run => run.congr onward back⟩
  · exact fun elem mem next => (onward elem mem next).symm
  · exact fun elem mem previous => (back elem mem previous).symm

theorem map_placeOf_of_not_mem (noLow : lo ∉ ms) : ms.map after.placeOf = ms.map equipped.placeOf :=
  map_congr_left fun _ mem => connects.placeOf_of_ne fun isLow => noLow (isLow ▸ mem)

/-- Two chains become one. -/
theorem mem_chains : row ∈ after.chains ↔ row = pre.map equipped.placeOf ++
        ⟨lo, !mandatory⟩ :: (hi :: post).map equipped.placeOf ∨
      row ∈ equipped.chains ∧ row ≠ (pre ++ [lo]).map equipped.placeOf ∧
        row ≠ (hi :: post).map equipped.placeOf := by
  have old := connects.sound.toShaped
  have new := connects.ties.sound.toShaped
  have lowMember : lo ∈ pre ++ [lo] := by simp
  have highMember : hi ∈ hi :: post := mem_cons_self
  rw [new.mem_chains, old.mem_chains]
  constructor
  · rintro ⟨ms, ⟨run, named⟩, rfl⟩
    have joint : ∀ r ∈ (pre ++ [lo]) ++ hi :: post, r ∈ ms →
        ms = (pre ++ [lo]) ++ hi :: post := fun r isMem mem =>
      new.eq_of_mem run connects.joinedRun mem isMem
    by_cases shares : lo ∈ ms ∨ hi ∈ ms
    · left
      have whole := shares.elim (joint lo (mem_append_left _ lowMember))
        (joint hi (mem_append_right _ highMember))
      rw [whole, connects.map_placeOf_joined]
    · right
      obtain ⟨noLow, noHigh⟩ := not_or.mp shares
      rw [connects.map_placeOf_of_not_mem noLow]
      refine ⟨⟨ms, ⟨(connects.isRun_iff noLow noHigh).mp run, fun r mem =>
        (named r mem).imp_left (connects.find_iff r).mp⟩, rfl⟩, ?_, ?_⟩
      · intro isFront
        rw [map_injective_iff.mpr placeOf_injective isFront] at noLow
        exact noLow lowMember
      · intro isBack
        rw [map_injective_iff.mpr placeOf_injective isBack] at noHigh
        exact noHigh highMember
  · rintro (isJoint | ⟨⟨ms, ⟨run, named⟩, rfl⟩, notFront, notBack⟩)
    · refine ⟨_, whole_of_mem connects.joinedRun (mem_append_left _ lowMember) (.inl ?_),
        isJoint.trans connects.map_placeOf_joined.symm⟩
      rw [connects.ties.known]
      exact .inr (.inl rfl)
    · have noLow : lo ∉ ms := fun mem => notFront (congrArg (List.map _)
        (old.eq_of_mem run connects.lowRun mem lowMember))
      have noHigh : hi ∉ ms := fun mem => notBack (congrArg (List.map _)
        (old.eq_of_mem run connects.highRun mem highMember))
      exact ⟨ms, ⟨(connects.isRun_iff noLow noHigh).mpr run, fun r mem =>
        (named r mem).imp_left (connects.find_iff r).mpr⟩,
        (connects.map_placeOf_of_not_mem noLow).symm⟩

end

end Connects

/-! ### Strengthening links -/

/-- A place as it is when the link behind one register is mandatory. -/
def firmed (lo : Register) (place : Place) : Place :=
  if place.register = lo then { place with optional := false } else place

/-- What becomes of a chain when the link behind a register has to be mandatory. If it was
optional, the other optional links of the chain are cut. -/
def hardened (lo : Register) (row : List Place) : List (List Place) :=
  if ⟨lo, true⟩ ∈ row then pieces (row.map (firmed lo)) else [row]

theorem register_firmed (place : Place) : (firmed lo place).register = place.register := by
  unfold firmed
  split
  · rfl
  · rfl

theorem mem_map_placeOf {place : Place} : place ∈ ms.map graph.placeOf ↔
      place.register ∈ ms ∧ (graph.placeOf place.register).optional = place.optional := by
  rw [mem_map]
  constructor
  · rintro ⟨r, mem, rfl⟩
    exact ⟨mem, rfl⟩
  · rintro ⟨mem, same⟩
    exact ⟨_, mem, congrArg (Place.mk place.register) same⟩

/-- Chains are cut where the link is made mandatory, and nowhere else. -/
theorem Shaped.severed_firmed (shaped : graph.Shaped)
    (optional : (graph.placeOf lo).optional = true) (isRow : row ∈ graph.chains) :
    severed [lo] (row.map (firmed lo)) = hardened lo row := by
  obtain ⟨ms, _, rfl⟩ := shaped.mem_chains.mp isRow
  unfold severed hardened
  have hit : ((ms.map graph.placeOf).map (firmed lo)).any
      (fun place => place.register ∈ [lo]) = true ↔ lo ∈ ms := by
    simp only [map_map, any_map, any_eq_true, Function.comp_apply, register_firmed,
      mem_singleton, decide_eq_true_eq]
    exact ⟨fun ⟨r, mem, isLow⟩ => isLow ▸ mem, fun mem => ⟨lo, mem, rfl⟩⟩
  have listed : ⟨lo, true⟩ ∈ ms.map graph.placeOf ↔ lo ∈ ms := by
    rw [mem_map_placeOf]
    exact and_iff_left optional
  by_cases mem : lo ∈ ms
  · rw [if_pos (hit.mpr mem), if_pos (listed.mpr mem)]
  · rw [if_neg (hit.not.mpr mem), if_neg (listed.not.mpr mem)]
    refine congrArg (fun row => [row]) ((map_congr_left fun place isMem => ?_).trans (map_id _))
    exact if_neg fun isLow : place.register = lo => mem (isLow ▸ (mem_map_placeOf.mp isMem).1)

section Strengthening

variable {a b : NodeId} {change : Node → Node}

theorem optional_placeOf_eq (named : graph.find lo = some a) :
    (graph.placeOf lo).optional = graph.optionalAfter a := by
  unfold placeOf
  rw [named, Option.any_some]

theorem Annotates.follows_false (annotates : Annotates change) (pool : graph.nodes.Sound)
    (first : NodeId) : (graph.update first change).Follows false = graph.Follows false := by
  funext one two
  exact propext (annotates.follows_iff pool fun no => absurd no Bool.false_ne_true)

section

variable (sound : graph.Sound) (lowNamed : graph.find lo = some a)

include sound lowNamed

/-- A change of a node leaves those of other chains as they are. -/
theorem Sound.node?_update (found : graph.node? id = some n)
    (apart : ¬ graph.Chained lo n.register) : (graph.update a change).node? id = some n := by
  have ne : id ≠ a := by
    rintro rfl
    obtain ⟨n', found', named⟩ := sound.live_of_find lowNamed
    cases found.symm.trans found'
    obtain ⟨pre, post, run⟩ := sound.exists_registerRun false lo
    exact apart ⟨_, run, by simp, by simp [named]⟩
  rw [(recast_update sound.pool a change).some found, if_neg ne]

theorem Sound.node?_harden (leads : graph.Leads false a b) (mandatory : Bool)
    (found : graph.node? id = some n) (apart : ¬ graph.Chained lo n.register) :
    (graph.strengthen a mandatory false).graph.node? id = some n := by
  unfold strengthen
  by_cases hardens : (mandatory && graph.optionalAfter a) = true
  · simp only [Bool.false_eq_true, if_false, hardens, if_true]
    obtain ⟨sound', _⟩ := sound.annotate_link annotates_mandatory leads
    have cut := sound'.node?_dropOptionalOf (r := lo) (sound.node?_update lowNamed found apart) (by
      rwa [Chained, annotates_mandatory.follows_false sound.pool])
    rwa [(recast_update sound.pool a _).find, lowNamed] at cut
  · simp only [Bool.false_eq_true, if_false, hardens]
    exact found

end

section

variable (sound : graph.Sound) (lowNamed : graph.find lo = some a)
  (highNamed : graph.find hi = some b) (leads : graph.Leads false a b)

include sound lowNamed highNamed leads

/-- The link behind a register is made mandatory, and nothing else changes. -/
theorem Sound.placeOf_hardened (r : Register) :
    (graph.update a fun n => { n with optionalLink := false }).placeOf r =
      firmed lo (graph.placeOf r) := by
  have strong := sound.follows_hardened annotates_mandatory (fun _ => rfl) lowNamed highNamed leads
  obtain ⟨sound', _⟩ := sound.annotate_link annotates_mandatory leads
  have weak := annotates_mandatory.follows_false sound.pool a
  unfold firmed
  split
  · next isLow =>
    obtain rfl : r = lo := isLow
    refine sound'.placeOf_eq fun next follows => ?_
    rw [weak] at follows
    exact (strong r next).mpr (.inr ⟨rfl, sound.follows_rightUnique false follows
      ⟨a, b, lowNamed, highNamed, leads⟩⟩)
  · next ne =>
    refine sound.placeOf_congr sound'.toShaped fun must next => ?_
    cases must with
    | false => rw [weak]
    | true =>
      rw [strong]
      exact or_iff_left fun isLow => ne isLow.1

/-- A link that is optional becomes mandatory, and the other optional links of its chain are
cut. -/
theorem Sound.mem_chains_harden (mandatory : Bool) :
    row ∈ (graph.strengthen a mandatory false).graph.chains ↔
      row ∈ if mandatory then graph.chains.flatMap (hardened lo) else graph.chains := by
  have flag := optional_placeOf_eq lowNamed
  unfold strengthen
  by_cases hardens : (mandatory && graph.optionalAfter a) = true
  · obtain ⟨rfl, optional⟩ := Bool.and_eq_true_iff.mp hardens
    simp only [Bool.false_eq_true, if_false, hardens, if_true]
    have recast := recast_update sound.pool a fun n : Node => { n with optionalLink := false }
    obtain ⟨sound', _⟩ := sound.annotate_link annotates_mandatory leads
    have rows : ∀ row, row ∈ (graph.update a fun n =>
        { n with optionalLink := false }).chains ↔
          row ∈ graph.chains.map (List.map (firmed lo)) := fun row => by
      rw [sound.mem_chains_congr sound'.toShaped
        (fun r => by rw [recast.find, or_iff_left not_mem_nil])
        (annotates_mandatory.follows_false sound.pool a)
        (sound.placeOf_hardened lowNamed highNamed leads), admitted_nil]
    have cut : ∀ row, row ∈ admitted _ [] ↔ row ∈ _ := fun row =>
      (sound'.severs_cleared true lo).mem_admitted sound'.toShaped
    unfold cleared at cut
    rw [recast.find, lowNamed, admitted_nil, admitted_nil] at cut
    refine (cut row).trans ?_
    simp only [mem_flatMap, rows, mem_map, exists_exists_and_eq_and, if_true]
    refine exists_congr fun row' => and_congr_right fun isRow => ?_
    rw [sound.severed_firmed (flag.trans optional) isRow]
  · simp only [Bool.false_eq_true, if_false, hardens]
    split
    · next needed =>
      have firm : (graph.placeOf lo).optional = false := by
        rw [flag]
        simpa [needed] using hardens
      have whole : ∀ row' ∈ graph.chains, hardened lo row' = [row'] := by
        intro row' isRow
        obtain ⟨ms, _, rfl⟩ := sound.mem_chains.mp isRow
        refine if_neg fun mem => ?_
        have optional := (mem_map_placeOf.mp mem).2
        rw [firm] at optional
        cases optional
      rw [flatMap_congr whole, flatMap_singleton']
    · exact Iff.rfl

/-- What is noted of a link concerns neither the chains nor the other nodes. -/
theorem Sound.strengthen_chains (mandatory via : Bool) :
    (∀ row, row ∈ (graph.strengthen a mandatory via).graph.chains ↔
      row ∈ if mandatory then graph.chains.flatMap (hardened lo) else graph.chains) ∧
    ∀ id n, graph.node? id = some n → ¬ graph.Chained lo n.register →
      (graph.strengthen a mandatory via).graph.node? id = some n := by
  cases via with
  | false =>
    exact ⟨fun _ => sound.mem_chains_harden lowNamed highNamed leads mandatory,
      fun _ _ => sound.node?_harden lowNamed leads mandatory⟩
  | true =>
    have recast := recast_update sound.pool a fun n : Node => { n with instructionLinked := true }
    obtain ⟨sound', leads'⟩ := sound.annotate_link annotates_instruction leads
    have lowNamed' := (recast.find lo).trans lowNamed
    have highNamed' := (recast.find hi).trans highNamed
    have weak := annotates_instruction.follows_false sound.pool a
    have places : ∀ r, (graph.update a fun n =>
        { n with instructionLinked := true }).placeOf r = id (graph.placeOf r) :=
      fun _ => sound.placeOf_congr sound'.toShaped fun _ _ =>
        annotates_instruction.follows_iff sound.pool fun _ _ => rfl
    have rows : ∀ row, row ∈ (graph.update a fun n =>
        { n with instructionLinked := true }).chains ↔ row ∈ graph.chains := fun row => by
      rw [sound.mem_chains_congr sound'.toShaped
        (fun r => by rw [recast.find, or_iff_left not_mem_nil])
        weak places, admitted_nil, map_id_fun, map_id]
    refine ⟨fun row => ?_, fun id n found apart => ?_⟩
    · refine (sound'.mem_chains_harden lowNamed' highNamed' leads' mandatory).trans ?_
      split
      · simp only [mem_flatMap, rows]
      · exact rows row
    · refine sound'.node?_harden lowNamed' leads' mandatory
        (sound.node?_update lowNamed found apart) ?_
      rwa [Chained, weak]

end

end Strengthening

/-! ### Links -/

/-- What a link does to the chains of a graph. -/
structure Concatenates (graph : ChainGraph) (low high : Register) (mandatory : Bool)
    (edit : Edit Bool) : Prop where
  refused : edit.result = false → edit.graph = graph
  /-- The piece that begins with the second register is put behind the one that ends with the
  first. -/
  joined : edit.result = true → ¬ graph.Follows false low high →
    let parts := (graph.admitted [low, high]).flatMap
      (severed (if mandatory then [low, high] else []))
    ∃ front back flag, front ++ [⟨low, false⟩] ∈ parts ∧ ⟨high, flag⟩ :: back ∈ parts ∧
      front ++ [⟨low, false⟩] ≠ ⟨high, flag⟩ :: back ∧
      ∀ row, row ∈ edit.graph.chains ↔ row = front ++ ⟨low, !mandatory⟩ :: ⟨high, flag⟩ :: back ∨
        row ∈ parts ∧ row ≠ front ++ [⟨low, false⟩] ∧ row ≠ ⟨high, flag⟩ :: back
  strengthened : edit.result = true → graph.Follows false low high → ∀ row,
    row ∈ edit.graph.chains ↔
      row ∈ if mandatory then graph.chains.flatMap (hardened low) else graph.chains
  demands : ∀ first second, graph.Follows true first second → edit.graph.Follows true first second
  parity : ∀ reg, graph.parityOf reg ≠ .any → edit.graph.parityOf reg = graph.parityOf reg
  elsewhere : ∀ id node, graph.node? id = some node →
    (∀ row ∈ graph.chains, node.register ∈ row.map (·.register) →
      low ∉ row.map (·.register) ∧ high ∉ row.map (·.register)) →
    edit.graph.node? id = some node

theorem Concatenates.of_refused (refused : edit.result = false) (same : edit.graph = graph) :
    graph.Concatenates lo hi mandatory edit where
  refused _ := same
  joined made := by
    rw [refused] at made
    cases made
  strengthened made := by
    rw [refused] at made
    cases made
  demands a b follows := by rwa [same]
  parity r _ := by rw [same]
  elsewhere id n found _ := by rwa [same]

theorem Shaped.not_chained (shaped : graph.Shaped) (found : graph.node? id = some n)
    (apart : ∀ row ∈ graph.chains, n.register ∈ row.map (·.register) → r ∉ row.map (·.register)) :
    ¬ graph.Chained r n.register := by
  rintro ⟨ms, run, isMem, mem⟩
  have named : graph.find n.register ≠ none := by
    rw [shaped.find_of_node? found]
    exact Option.some_ne_none id
  refine apart _ (shaped.mem_chains.mpr ⟨ms, whole_of_mem run mem (.inl named), rfl⟩) ?_ ?_
  · rwa [map_register_placeOf]
  · rwa [map_register_placeOf]

/-- The end of a chain has no link behind it. -/
theorem Shaped.placeOf_last (shaped : graph.Shaped)
    (run : IsRun (graph.Follows false) (pre ++ [lo])) : graph.placeOf lo = ⟨lo, false⟩ :=
  shaped.placeOf_eq fun next follows => absurd follows (run.last lo (by simp) next)

theorem Connects.concatenates {equipped : ChainGraph} {post : List Register}
    (made : edit.result = true) (sound : graph.Sound) (apart : ¬ graph.Follows false lo hi)
    (connects : graph.Connects edit.graph lo hi mandatory
      ((graph.cleared mandatory lo).cleared mandatory hi) equipped pre post) :
    graph.Concatenates lo hi mandatory edit where
  refused refused := by
    rw [made] at refused
    cases refused
  joined _ _ := by
    have severs := sound.severs_both mandatory lo hi
    have rows : ∀ row, row ∈ equipped.chains ↔ row ∈ (graph.admitted [lo, hi]).flatMap
        (severed (if mandatory then [lo, hi] else [])) := by
      intro row
      have same : row ∈ equipped.chains ↔
          row ∈ (((graph.cleared mandatory lo).cleared mandatory hi).admitted [lo, hi]).map
            (List.map id) := by
        refine severs.shaped.mem_chains_congr connects.sound.toShaped (fun r => ?_) ?_ fun r =>
          severs.shaped.placeOf_congr connects.sound.toShaped fun _ _ => connects.follows ..
        · rw [connects.known, severs.known]
          simp
        · funext a b
          exact propext (connects.follows false a b)
      rw [same, map_id_fun, map_id, severs.mem_admitted sound.toShaped]
    have known : ∀ r, r = lo ∨ r = hi → equipped.find r ≠ none :=
      fun r either => (connects.known r).mpr (.inr either)
    have lowPlace := connects.sound.placeOf_last connects.lowRun
    have frontRow : (pre ++ [lo]).map equipped.placeOf =
        pre.map equipped.placeOf ++ [⟨lo, false⟩] := by
      rw [map_append, map_singleton, lowPlace]
    refine ⟨pre.map equipped.placeOf, post.map equipped.placeOf,
      (equipped.placeOf hi).optional, ?_, ?_, ?_, fun row => ?_⟩
    · rw [← frontRow, ← rows]
      exact connects.sound.mem_chains.mpr
        ⟨_, whole_of_mem connects.lowRun (by simp) (.inl (known lo (.inl rfl))), rfl⟩
    · rw [← rows]
      exact connects.sound.mem_chains.mpr
        ⟨_, whole_of_mem connects.highRun mem_cons_self (.inl (known hi (.inr rfl))), rfl⟩
    · rw [← frontRow]
      exact fun same => connects.apart (map_injective_iff.mpr placeOf_injective same)
    · rw [← frontRow, ← rows]
      exact connects.mem_chains
  strengthened _ follows := absurd follows apart
  demands _ _ follows := connects.tiesWhole.grows.follows sound.toShaped
    connects.ties.sound.toShaped follows
  parity _ fixed :=
    connects.tiesWhole.grows.parityOf sound.toShaped connects.ties.sound.toShaped fixed
  elsewhere id n found others := connects.elsewhere id n found
    (sound.not_chained found fun row isRow mem => (others row isRow mem).1)
    (sound.not_chained found fun row isRow mem => (others row isRow mem).2)

theorem Sound.concatenates_strengthen (sound : graph.Sound) {a b : NodeId}
    (made : edit.result = true) (ties : graph.Ties edit.graph lo hi mandatory)
    (lowNamed : graph.find lo = some a) (highNamed : graph.find hi = some b)
    (leads : graph.Leads false a b) (same : edit.graph = (graph.strengthen a mandatory via).graph) :
    graph.Concatenates lo hi mandatory edit := by
  obtain ⟨rows, elsewhere⟩ := sound.strengthen_chains lowNamed highNamed leads mandatory via
  rw [← same] at rows elsewhere
  refine ⟨fun refused => ?_, fun _ apart => ?_, fun _ _ => rows, fun _ _ => ?_, fun _ => ?_,
    fun id n found others => elsewhere id n found ?_⟩
  · cases made.symm.trans refused
  · exact absurd ⟨a, b, lowNamed, highNamed, leads⟩ apart
  · exact ties.grows.follows sound.toShaped ties.sound.toShaped
  · exact ties.grows.parityOf sound.toShaped ties.sound.toShaped
  · exact sound.not_chained found fun row isRow mem => (others row isRow mem).1

/-- Linking two registers is the concatenation of two lists. -/
theorem Sound.link_concatenates (sound : graph.Sound) (low high : Register)
    (mandatory viaInstruction : Bool) :
    graph.Concatenates low high mandatory (graph.link low high mandatory viaInstruction) := by
  obtain ⟨before, behind, run⟩ := sound.exists_registerRun mandatory low
  obtain ⟨before', behind', run'⟩ := sound.exists_registerRun mandatory high
  rcases sound.link_cases mandatory viaInstruction run run' with
    ⟨refused, same, _⟩ | ⟨made, _, ties, first, second, lowNamed, highNamed, leads, same⟩ |
    ⟨made, apart, _, rfl, rfl, _, equipped, connects⟩
  · exact .of_refused refused same
  · exact sound.concatenates_strengthen made ties lowNamed highNamed leads same
  · exact connects.concatenates made sound apart

/-- A run of two registers with a preference behind it, and another preference. -/
def preferring : ChainGraph :=
  [Request.link (.temp 1) none (.temp 2) none true false,
    .link (.temp 2) none (.temp 3) none false false,
    .link (.temp 4) none (.temp 5) none false false].foldl Request.perform
    (empty MachineSpec.standard.target.limits)

/-- A mandatory link between the two chains cuts both preferences. -/
theorem preferring_concatenates : preferring.chains =
      [[⟨.temp 1, false⟩, ⟨.temp 2, true⟩, ⟨.temp 3, false⟩], [⟨.temp 4, true⟩, ⟨.temp 5, false⟩]] ∧
    (preferring.link (.temp 2) (.temp 4) true false).result = true ∧
    (preferring.link (.temp 2) (.temp 4) true false).graph.chains =
      [[⟨.temp 1, false⟩, ⟨.temp 2, false⟩, ⟨.temp 4, false⟩], [⟨.temp 3, false⟩],
        [⟨.temp 5, false⟩]] ∧ preferring.Concatenates (.temp 2) (.temp 4) true
      (preferring.link (.temp 2) (.temp 4) true false) := by
  have sound : preferring.Sound := by
    unfold preferring
    refine foldlRecOn _ Request.perform (sound_empty _) fun _ sound request _ => ?_
    exact upkept_sound.perform sound request
  exact ⟨by decide +kernel, by decide +kernel, by decide +kernel,
    sound.link_concatenates (.temp 2) (.temp 4) true false⟩

end ChainGraph

end RegisterChains

/-
This file compares a graph with one that demands at least as much. If the larger graph makes some
operands consecutive, they fit the smaller graph as well, and the smaller graph stays below the
larger one when they are committed to it. In particular, a run that was committed fits whenever it
is asked for again, and while its last members are still undecided.
-/

import RegisterChains.Proofs.Chain.Filling
import RegisterChains.Proofs.Chain.Meeting
import RegisterChains.Proofs.Chain.Merging

namespace RegisterChains

namespace ChainGraph

open List

open Step

variable {g whole after : ChainGraph} {regs ms ops : List Register} {r : Register}
  {parity base : Parity} {bank : Option Bank}

/-! ### Standing along a run -/

section

variable {first : Register} {i : Nat} (shaped : g.Shaped)
  (linked : regs.IsChain (g.Follows true)) (starts : regs[0]? = some first)
  (placed : regs[i]? = some r)

include shaped linked starts placed

/-- Each step along linked registers leaves one more register behind, and one less to come. They
are all in one bank. -/
theorem Shaped.standing_along : g.ahead r = g.ahead first + i ∧ g.beyond first = g.beyond r + i ∧
    g.runBank r = g.runBank first := by
  induction i generalizing r with
  | zero =>
    cases starts.symm.trans placed
    exact ⟨rfl, rfl, rfl⟩
  | succ i ih =>
    obtain ⟨bound, rfl⟩ := List.getElem?_eq_some_iff.mp placed
    have here : regs[i]? = some regs[i] := getElem?_eq_getElem (by omega)
    obtain ⟨ahead, beyond, bank⟩ := ih here
    obtain ⟨ahead', beyond', bank'⟩ := shaped.standing_step (linked.getElem i bound)
    exact ⟨by omega, by omega, bank'.trans bank⟩

end

theorem Shaped.nodup_of_isChain (shaped : g.Shaped) (linked : regs.IsChain (g.Follows true)) :
    regs.Nodup := by
  rw [nodup_iff_getElem?_ne_getElem?]
  intro early late order bound same
  have there : regs[late]? = some regs[late] := getElem?_eq_getElem bound
  have starts : regs[0]? = some regs[0] := getElem?_eq_getElem (by omega)
  have one := (shaped.standing_along linked starts (same.trans there)).1
  have ascends := (shaped.standing_along linked starts there).1
  omega

theorem bankFor_of_uniform (filled : regs ≠ []) (uniform : ∀ r ∈ regs, g.runBank r = bank) :
    g.bankFor regs = bank := by
  cases bank with
  | none => exact findSome?_eq_none_iff.mpr uniform
  | some bank =>
    obtain ⟨head, rest, rfl⟩ := exists_cons_of_ne_nil filled
    rw [bankFor, findSome?_cons, uniform head mem_cons_self]

/-- Linked registers take up no more places than their run has. -/
theorem Sound.span_le_of_isChain (sound : g.Sound) (bounded : g.Bounded)
    (linked : regs.IsChain (g.Follows true)) (filled : regs ≠ []) :
    g.span regs ≤ g.limit ((g.bankFor regs).getD .temp) := by
  obtain ⟨first, rest, rfl⟩ := exists_cons_of_ne_nil filled
  obtain ⟨pre, post, run⟩ := sound.exists_registerRun true first
  obtain ⟨ahead, beyond, isBank⟩ := sound.standing run
  have ends : (first :: rest)[rest.length]? = some ((first :: rest)[rest.length]) :=
    getElem?_eq_getElem (by simp)
  have final : (first :: rest).getLast? = some ((first :: rest)[rest.length]) := by
    rw [getLast?_eq_getElem?]
    exact ends
  have counted := (sound.standing_along linked rfl ends).2.1
  have room := bounded.mandatory_room sound run
  have bank : g.bankFor (first :: rest) = g.runBank first := by
    refine bankFor_of_uniform filled fun r mem => ?_
    obtain ⟨i, placed⟩ := getElem?_of_mem mem
    exact (sound.standing_along linked rfl placed).2.2
  have length : (pre ++ first :: post).length = pre.length + (post.length + 1) := by simp
  unfold span
  rw [final, bank, isBank]
  simp only [head?_cons, Option.elim_some, length_cons]
  rw [length] at room
  exact Nat.le_trans (by omega) room

/-! ### Candidates that fit -/

/-- The numbers that registers are pinned to ascend with the registers. -/
def PinsAscend (g : ChainGraph) (regs : List Register) : Prop :=
  ∃ start, ∀ (i : Nat) r pin physical, regs[i]? = some r → g.pinAt r = some pin →
    pin.physical = some physical → physical.toNat = start + i

/-- The pins of the registers of a candidate agree: their runs are in one bank, their numbers
ascend, and they can follow each other. -/
structure PinsAgree (g : ChainGraph) (regs : List Register) : Prop where
  banks : ∃ bank, ∀ reg ∈ regs, g.runBank reg = bank
  numbers : g.PinsAscend regs
  adjacent : ∀ (index : Nat) low high first second, regs[index]? = some low →
    regs[index + 1]? = some high → g.pinAt low = some first → g.pinAt high = some second →
      first.canPrecede second = true

theorem Shaped.pinsAgree_of_unpinned (shaped : g.Shaped) (unpinned : ∀ r, g.pinAt r = none)
    (regs : List Register) : g.PinsAgree regs where
  banks := ⟨none, findSome?_eq_none_iff.mp (shaped.bankFor_of_unpinned unpinned regs)⟩
  numbers := ⟨0, fun _ r _ _ _ pinned => by cases (unpinned r).symm.trans pinned⟩
  adjacent _ r _ _ _ _ _ pinned := by cases (unpinned r).symm.trans pinned

/-- Pins that agree imply at most one number for the first place. -/
theorem PinsAgree.exists_baseNumber (agree : g.PinsAgree regs) :
    ∃ number, g.baseNumber (g.existingNodes (regs.map .register))
      (g.members (regs.map .register)) = .ok number := by
  obtain ⟨start, numbers⟩ := agree.numbers
  refine exists_baseNumber_iff.mpr ⟨⟨start, fun mem isMem physical isPhysical => ?_⟩,
    fun mem isMem pin isPin later prev isPrev => ?_⟩
  · obtain ⟨r, placed, known, found⟩ := register_of_mem_members isMem
    obtain ⟨pin, isPin, isPhysical⟩ := Option.bind_eq_some_iff.mp isPhysical
    rw [← pinAt_of_find known found] at isPin
    exact numbers _ _ _ physical placed isPin isPhysical
  · obtain ⟨r, placed, known, found⟩ := register_of_mem_members isMem
    rw [← pinAt_of_find known found] at isPin
    obtain ⟨one, there, pinned⟩ := Option.bind_eq_some_iff.mp isPrev
    rw [getElem?_existingNodes, Option.join_eq_some_iff, Option.map_eq_some_iff] at there
    obtain ⟨before, isBefore, named⟩ := there
    refine agree.adjacent (mem.index - 1) before r prev pin isBefore ?_ ?_ isPin
    · rw [Nat.sub_add_cancel later, placed]
    · rw [pinAt, named, Option.bind_some, pinned]

theorem Shaped.neighbours_of_ordered (shaped : g.Shaped) (ordered : g.Ordered regs) :
    g.neighbourConflict (regs.map .register) (g.existingNodes (regs.map .register))
      (g.members (regs.map .register)) = none := by
  refine neighbourConflict_eq_none.mpr fun mem isMem => ?_
  obtain ⟨r, placed, known, found⟩ := register_of_mem_members isMem
  have beside : ∀ {i : Nat} {one id}, regs[i]? = some one → g.find one = some id →
      ((g.existingNodes (regs.map .register))[i]?).join = some id := by
    intro i one id listed named
    rw [getElem?_existingNodes, listed, Option.map_some, Option.join_some, named]
  refine ⟨fun prev back later known' must => ?_, fun next onward _ known' must => ?_⟩
  · obtain ⟨predecessor, reached, onward⟩ := shaped.backward _ _ _ found back
    have bound := decided_iff.mp known'
    have listed : regs[mem.index - 1]? = some regs[mem.index - 1] := getElem?_eq_getElem bound
    have placed' : regs[mem.index - 1 + 1]? = some r := by
      rw [Nat.sub_add_cancel later]
      exact placed
    have named := shaped.find_of_node? reached
    have follows : g.Follows true predecessor.register r :=
      ⟨prev, mem.id, named, known, predecessor, reached, onward, fun _ => by
        rw [optionalAfter, reached, Option.any_some] at must
        exact must⟩
    rw [ordered.prev _ _ _ _ listed placed' follows] at named
    exact beside listed named
  · obtain ⟨successor, reached, _⟩ := shaped.forward _ _ _ found onward
    have bound := decided_iff.mp known'
    have listed : regs[mem.index + 1]? = some regs[mem.index + 1] := getElem?_eq_getElem bound
    have named := shaped.find_of_node? reached
    have follows : g.Follows true r successor.register :=
      ⟨mem.id, next, known, named, mem.node, found, onward, fun _ => must⟩
    rw [ordered.next _ _ _ _ placed listed follows] at named
    exact beside listed named

/-- Each run begins where its registers are said to stand. -/
def StandsAt (g : ChainGraph) (regs : List Register) (stand : Register → Nat) : Prop :=
  ∀ {pre post reg head first} {i : Nat}, IsRun (g.Follows true) (pre ++ reg :: post) →
    (pre ++ reg :: post).head? = some head → regs[i]? = some reg → regs.head? = some first →
    stand head + g.ahead reg = stand first + i

theorem Shaped.exists_extent (shaped : g.Shaped) (banks : ∀ r ∈ regs, g.runBank r = bank)
    {stand : Register → Nat} (stands : g.StandsAt regs stand) (extent : Extent)
    (fresh : extent.starts = .empty) (unset : extent.bank = none) :
    ∃ last, (g.members (regs.map .register)).foldlM g.extend extent = .ok last := by
  refine exists_foldlM_extend
    (fun head => (stand (g.registerOf head) : Int) - regs.head?.elim 0 stand) bank
    (fun mem isMem => ?_) (fun mem isMem own isOwn => ?_)
    (fun _ isOwn => by cases unset.symm.trans isOwn) fun head start found => ?_
  · obtain ⟨r, placed, known, _⟩ := register_of_mem_members isMem
    obtain ⟨pre, post, run⟩ := shaped.exists_registerRun true r
    obtain ⟨_, _, _, isHead⟩ := shaped.segment_of_run known run
    obtain ⟨head, starts, named⟩ := Option.bind_eq_some_iff.mp isHead
    obtain ⟨first, begins⟩ : ∃ first, regs.head? = some first :=
      Option.isSome_iff_exists.mp (isSome_head?.mpr (ne_nil_of_mem (mem_of_getElem? placed)))
    have standing := stands run starts placed begins
    rw [(shaped.startOf_eq known).1, shaped.registerOf_find named, begins]
    simp only [Option.elim_some]
    omega
  · obtain ⟨r, placed, known, _⟩ := register_of_mem_members isMem
    rw [← banks r (mem_of_getElem? placed), runBank, known, Option.bind_some, isOwn]
  · rw [fresh] at found
    cases found

/-- Virtual registers fit if they are in order, there is room for them, their parities and their
pins agree, and each of their runs has one place to begin. -/
theorem Sound.exists_fitVirtual (sound : g.Sound) (agree : g.PinsAgree regs)
    (stand : Register → Nat) (virt : ∀ r ∈ regs, r.isVirtual = true) (distinct : regs.Nodup)
    (ordered : g.Ordered regs)
    (parities : baseParity (g.members (regs.map .register)) parity = .ok base)
    (room : g.span regs ≤ g.limit ((g.bankFor regs).getD .temp)) (stands : g.StandsAt regs stand) :
    ∃ fit, g.fitVirtual (regs.map .register) parity = .ok fit ∧ fit.parity = base := by
  have clear : operandConflict (regs.map .register) = none := by
    refine operandConflict_eq_none.mpr ⟨distinct, fun r mem => ?_⟩
    have isTemp : r.kind = .temp := eq_of_beq (virt r mem)
    rw [Register.isImmediate, isTemp]
    rfl
  obtain ⟨number, numbers⟩ := agree.exists_baseNumber
  obtain ⟨_, banks⟩ := agree.banks
  obtain ⟨extent, extents⟩ := sound.exists_extent banks stands
    ⟨none, .empty, 0, (regs.map Slot.register).length⟩ rfl rfl
  obtain ⟨length, bank⟩ := sound.span_of_spans ordered (spans_of_foldlM extents)
  have short : (extent.high - extent.low).toNat ≤ g.limit (extent.bank.getD .temp) := by
    rw [length, bank]
    exact room
  exact ⟨_, fitVirtual_eq_ok.mpr ⟨clear, base, number, extent, parities, numbers,
    sound.neighbours_of_ordered ordered, extents, short, rfl⟩, rfl⟩

/-! ### Below a graph that demands more -/

/-- The mandatory links and the parities of a graph are demanded by another one, too. -/
structure Below (g whole : ChainGraph) : Prop where
  links : ∀ low high, g.Follows true low high → whole.Follows true low high
  parity : ∀ reg, g.parityOf reg ≠ .any → whole.parityOf reg = g.parityOf reg

namespace Below

theorem ordered (below : g.Below whole) (shaped : whole.Shaped)
    (linked : regs.IsChain (whole.Follows true)) : g.Ordered regs := by
  have step : ∀ i lo hi, regs[i]? = some lo →
      regs[i + 1]? = some hi → whole.Follows true lo hi := by
    intro i lo hi here there
    obtain ⟨_, rfl⟩ := List.getElem?_eq_some_iff.mp here
    obtain ⟨bound, rfl⟩ := List.getElem?_eq_some_iff.mp there
    exact linked.getElem i bound
  refine ⟨fun i lo hi one here there follows => ?_, fun i lo hi one here there follows => ?_⟩
  · exact shaped.follows_rightUnique true (below.links _ _ follows) (step i lo hi here there)
  · exact shaped.follows_leftUnique true (below.links _ _ follows) (step i lo hi here there)

section

variable (below : g.Below whole) (shaped : g.Shaped) (shaped' : whole.Shaped)

include below shaped shaped'

/-- A register is as far from the head of its run in both graphs. -/
theorem ahead_eq {pre post : List Register} {head : Register}
    (run : IsRun (g.Follows true) (pre ++ r :: post))
    (starts : (pre ++ r :: post).head? = some head) :
    whole.ahead r = whole.ahead head + g.ahead r := by
  rw [(shaped.standing run).1]
  refine (shaped'.standing_along (run.linked.imp below.links) ?_ ?_).1
  · rw [← head?_eq_getElem?]
    exact starts
  · rw [getElem?_append_right (Nat.le_refl _), Nat.sub_self]
    rfl

theorem ahead_le (r : Register) : g.ahead r ≤ whole.ahead r := by
  obtain ⟨pre, post, run⟩ := shaped.exists_registerRun true r
  obtain ⟨head, starts⟩ := Option.isSome_iff_exists.mp (isSome_head?.mpr run.nonempty)
  rw [below.ahead_eq shaped shaped' run starts]
  exact Nat.le_add_left ..

theorem beyond_le (r : Register) : g.beyond r ≤ whole.beyond r := by
  obtain ⟨pre, post, run⟩ := shaped.exists_registerRun true r
  have linked : (r :: post).IsChain (whole.Follows true) :=
    (run.linked.imp below.links).suffix (suffix_append ..)
  have ends : (r :: post)[post.length]? = some ((r :: post)[post.length]) :=
    getElem?_eq_getElem (by simp)
  rw [(shaped.standing run).2.1, (shaped'.standing_along linked rfl ends).2.1]
  exact Nat.le_add_left ..

theorem span_le (regs : List Register) : g.span regs ≤ whole.span regs := by
  have front : regs.head?.elim 0 g.ahead ≤ regs.head?.elim 0 whole.ahead := by
    cases regs.head? with
    | none => exact Nat.le_refl 0
    | some first => exact below.ahead_le shaped shaped' first
  have back : regs.getLast?.elim 0 g.beyond ≤ regs.getLast?.elim 0 whole.beyond := by
    cases regs.getLast? with
    | none => exact Nat.le_refl 0
    | some last => exact below.beyond_le shaped shaped' last
  unfold span
  omega

end

/-- What the larger graph makes consecutive fits the smaller one, and asks for no other parity. -/
theorem fitVirtual_eq_ok (below : g.Below whole) (sound : g.Sound) (sound' : whole.Sound)
    (agree : g.PinsAgree regs) (virt : ∀ r ∈ regs, r.isVirtual = true)
    (holds : whole.RunHolds regs parity)
    (room : whole.span regs ≤ g.limit ((g.bankFor regs).getD .temp)) :
    ∃ fit, g.fitVirtual (regs.map .register) parity = .ok fit ∧
      ∀ first ∈ regs.head?, fit.parity ≠ .any → whole.parityOf first = fit.parity := by
  obtain ⟨linked, starts⟩ := holds
  -- Every parity in the candidate is that of the larger graph, counted from the first register.
  obtain ⟨base, parities, isBase⟩ : ∃ base,
      baseParity (g.members (regs.map .register)) parity =
        .ok base ∧ ∀ first ∈ regs.head?, base ≠ .any → whole.parityOf first = base := by
    cases regs with
    | nil => exact ⟨parity, rfl, nofun⟩
    | cons first rest =>
      have asked : parity = .any ∨ parity = whole.parityOf first := by
        by_cases free : parity = .any
        · exact .inl free
        · exact .inr (starts first rfl free).symm
      have agree : ∀ mem ∈ g.members ((first :: rest).map .register), mem.node.parity ≠ .any →
            mem.node.parity = (whole.parityOf first).atOffset mem.index := by
        intro mem isMem fixed
        obtain ⟨r, placed, known, found⟩ := register_of_mem_members isMem
        rw [← parityOf_of_find known found] at fixed ⊢
        have begins : (first :: rest)[0]? = some first := rfl
        rw [← below.parity r fixed, sound'.parity_between linked begins placed, Nat.zero_add]
      obtain ⟨base, found, isBase⟩ := baseParity_of_agreeing asked agree
      refine ⟨base, found, fun one begins fixed => ?_⟩
      cases begins
      exact (isBase.resolve_left fixed).symm
  obtain ⟨fit, fits, rfl⟩ := sound.exists_fitVirtual agree whole.ahead virt
    (sound'.nodup_of_isChain linked) (below.ordered sound'.toShaped linked) parities
    ((below.span_le sound.toShaped sound'.toShaped regs).trans room)
    fun run isHead placed begins => by
      rw [← below.ahead_eq sound.toShaped sound'.toShaped run isHead]
      exact (sound'.standing_along linked (head?_eq_getElem? ▸ begins) placed).1
  exact ⟨fit, fits, isBase⟩

end Below

/-- All links and parities of a graph are demanded by another one, too. -/
structure Embeds (g whole : ChainGraph) : Prop where
  links : ∀ low high, g.Follows false low high → whole.Follows true low high
  parity : ∀ reg, g.parityOf reg ≠ .any → whole.parityOf reg = g.parityOf reg

theorem embeds_empty (limits : BankLimits) (whole : ChainGraph) : (empty limits).Embeds whole where
  links _ _ follows := absurd follows Shaped.not_follows_empty
  parity _ fixed := absurd (parityOf_of_none rfl) fixed

namespace Embeds

variable {must : Bool}

theorem below (embeds : g.Embeds whole) : g.Below whole :=
  ⟨fun _ _ follows => embeds.links _ _ follows.weaken, embeds.parity⟩

/-! ### Committing below a graph -/

/-- Two graphs that make the same registers consecutive agree on the parities of all of them or
of none. -/
theorem agree_along (sound : g.Sound) (sound' : whole.Sound)
    (linked : ms.IsChain (g.Follows must)) (linked' : ms.IsChain (whole.Follows true))
    {source : Register} (listed : source ∈ ms) (mem : r ∈ ms)
    (agree : whole.parityOf source = g.parityOf source) : whole.parityOf r = g.parityOf r := by
  obtain ⟨i, placed⟩ := getElem?_of_mem listed
  obtain ⟨i', placed'⟩ := getElem?_of_mem mem
  rw [sound.parity_between linked placed placed',
    sound'.parity_between linked' placed placed', agree]

section

variable (embeds : g.Embeds whole) (sound : g.Sound) (sound' : whole.Sound) {via : Bool}

include embeds sound sound'

theorem of_ties {lo hi : Register} (ties : g.Ties after lo hi true)
    (demanded : whole.Follows true lo hi) : after.Embeds whole := by
  have links : ∀ a b, after.Follows false a b → whole.Follows true a b := by
    intro a b follows
    rcases ties.follows a b follows with old | ⟨rfl, rfl⟩
    · exact embeds.links a b old
    · exact demanded
  refine ⟨links, fun r fixed => ?_⟩
  by_cases same : after.parityOf r = g.parityOf r
  · rw [same] at fixed ⊢
    exact embeds.parity r fixed
  · -- A new parity comes along the joined run from the side that had one.
    obtain ⟨⟨ms, run, mem, withLow⟩, source⟩ := ties.parity r same
    have tied : after.Follows true lo hi := (ties.demands lo hi).mpr (.inr ⟨rfl, rfl, rfl⟩)
    obtain ⟨front, back, split⟩ :=
      run.split_of_next (ties.sound.follows_rightUnique true) withLow tied
    have withHigh : hi ∈ ms := by simp [split]
    have known : ∀ source, g.parityOf source ≠ .any →
        whole.parityOf source = after.parityOf source := by
      intro source set
      rw [embeds.parity source set, ties.grows.parityOf sound.toShaped ties.sound.toShaped set]
    have linked' : ms.IsChain (whole.Follows true) :=
      run.linked.imp fun _ _ follows => links _ _ follows.weaken
    rcases source with set | set
    · exact agree_along ties.sound sound' run.linked linked' withLow mem (known lo set)
    · exact agree_along ties.sound sound' run.linked linked' withHigh mem (known hi set)

theorem of_commitLinks (linked : regs.IsChain (whole.Follows true))
    (ran : (commitLinks via regs).Yields g () after) : after.Sound ∧ after.Embeds whole := by
  induction regs generalizing g with
  | nil =>
    obtain ⟨_, rfl⟩ := yields_pure.mp ran
    exact ⟨sound, embeds⟩
  | cons head rest ih =>
    cases rest with
    | nil =>
      obtain ⟨_, rfl⟩ := yields_pure.mp ran
      exact ⟨sound, embeds⟩
    | cons next rest =>
      obtain ⟨made, later⟩ := commitLinks_cons_yields.mp ran
      obtain ⟨demanded, linked⟩ := isChain_cons_cons.mp linked
      have ties := (sound.link head next true via).1 made
      exact ih (embeds.of_ties sound sound' ties demanded) ties.sound linked later

theorem of_demandParity {id : NodeId} (named : g.find r = some id) {must : Bool}
    (agrees : parity ≠ .any → whole.parityOf r = parity)
    (ran : (demandParity id parity must).Yields g true after) : after.Embeds whole := by
  obtain ⟨settles, granted⟩ := sound.demandParity_granted named ran
  have links : ∀ lo hi, after.Follows false lo hi → whole.Follows true lo hi :=
    fun lo hi follows => embeds.links lo hi ((settles.follows_iff sound).mp follows)
  refine ⟨links, fun one fixed => ?_⟩
  by_cases free : parity = .any
  · obtain ⟨_, _, rfl⟩ := (demandParity_yields.mp ran).resolve_right fun asked => asked.1 free
    exact embeds.parity one fixed
  · -- The parity spreads over the chain of the register, and no further.
    obtain ⟨pre, post, run⟩ := sound.exists_registerRun false r
    have listed : r ∈ pre ++ r :: post := mem_append_cons_self
    by_cases mem : one ∈ pre ++ r :: post
    · have linked : (pre ++ r :: post).IsChain (after.Follows false) :=
        run.linked.imp fun _ _ follows => (settles.follows_iff sound).mpr follows
      refine agree_along settles.sound sound' linked (linked.imp fun _ _ => links _ _) listed mem ?_
      rw [agrees free, granted free]
    · have kept := sound.demandParity_apart named run ran mem
      rw [kept] at fixed ⊢
      exact embeds.parity one fixed

/-- Committing what the larger graph makes consecutive keeps the smaller graph below it. -/
theorem of_commit (linked : regs.IsChain (whole.Follows true))
    (agrees : ∀ first ∈ regs.head?, parity ≠ .any → whole.parityOf first = parity)
    (ran : (commit regs parity via).Yields g () after) : after.Embeds whole := by
  unfold commit at ran
  split at ran
  · obtain ⟨_, mid, links, demands⟩ := yields_bind.mp ran
    obtain ⟨middleSound, below⟩ := embeds.of_commitLinks sound sound' linked links
    rcases commitParity_cases demands with ⟨rfl, _⟩ | ⟨head, rest, rfl, grants⟩
    · exact below
    · have equips := middleSound.equipped_ensure head
      have below' : (mid.ensure head).graph.Embeds whole :=
        ⟨fun lo hi follows => below.links lo hi ((equips.follows false lo hi).mp follows),
          fun r fixed => by
            rw [equips.parity] at fixed ⊢
            exact below.parity r fixed⟩
      exact below'.of_demandParity equips.sound sound' (middleSound.find_ensure head)
        (agrees head rfl) grants
  · split at ran
    · obtain ⟨_, rfl⟩ := yields_pure.mp ran
      exact embeds
    · exact absurd ran not_yields_breach

end

end Embeds

/-- Without pins, virtual registers can only be among the temporaries. -/
theorem Accommodates.length_le_temp (room : g.Accommodates ops) (unpinned : ∀ r, g.pinAt r = none)
    (mem : r ∈ ops) (virt : r.isVirtual = true) : ops.length ≤ g.limit .temp := by
  obtain ⟨bank, short, enter⟩ := room
  rcases enter r mem with hardware | ⟨_, rfl | ⟨one, pin, pinned, _⟩⟩
  · rw [hardwareBank_of_isVirtual virt] at hardware
    cases hardware
  · exact short
  · rw [unpinned one] at pinned
    cases pinned

/-- A sound graph without pins, whose runs fit the temporaries if anything does. -/
structure Unpinned (g : ChainGraph) : Prop where
  sound : g.Sound
  pins : ∀ reg, g.pinAt reg = none
  bounded : 1 ≤ g.limit .temp → g.Bounded

theorem unpinned_empty (limits : BankLimits) : (empty limits).Unpinned :=
  ⟨sound_empty limits, fun _ => rfl, fun room => bounded_empty room⟩

theorem Unpinned.refines (unpinned : g.Unpinned) (refines : g.Refines after) : after.Unpinned := by
  refine ⟨refines.sound, fun r => ?_, fun room => refines.bounded (unpinned.bounded ?_)⟩
  · rw [refines.pin, unpinned.pins]
  · unfold limit at room ⊢
    rwa [← refines.limits]

/-- Operands that the larger graph makes consecutive, and that a bank has room for, can be
committed to a smaller graph, which stays below the larger one. -/
theorem Embeds.commit_of_answers (embeds : g.Embeds whole) (unpinned : g.Unpinned)
    (unpinned' : whole.Unpinned) (limits : whole.limits = g.limits)
    (answers : whole.Answers ops parity) (via : Bool) :
    ∃ fit after, g.fitOperands ops parity = .ok fit ∧
      (commit ops fit.parity via).Yields g () after ∧ after.Embeds whole := by
  rcases answers.meets with ⟨first, bank, starts, hardware, ascending, allowed⟩ | ⟨virt, holds⟩
  · have mem : first ∈ ops := mem_of_mem_head? starts
    obtain ⟨bank', short, enter⟩ := answers.room
    -- A hardware register can only be in its own bank.
    obtain rfl : bank = bank' := by
      rcases enter first mem with own | ⟨none, _⟩
      · exact Option.some_inj.mp (hardware.symm.trans own)
      · rw [hardware] at none
        cases none
    have short' : ops.length ≤ g.limit bank := by
      unfold limit at short ⊢
      rwa [← limits]
    have numbered : (ops.map Slot.register).any isNumbered = true :=
      any_isNumbered_eq_true.mpr ⟨first, mem, by rw [hardware]; rfl⟩
    obtain ⟨fit, fits⟩ : ∃ fit, g.fitNumbered (ops.map .register) parity = .ok fit :=
      ⟨_, fitNumbered_eq_ok.mpr ⟨first, bank, starts, hardware, ascending, allowed, short', rfl⟩⟩
    refine ⟨fit, g, ?_, commit_of_fitNumbered fits via, embeds⟩
    unfold fitOperands ChainGraph.fit
    rw [if_pos numbered]
    exact fits
  · rw [all_eq_true] at virt
    have room : whole.span ops ≤ g.limit ((g.bankFor ops).getD .temp) := by
      rw [unpinned.sound.bankFor_of_unpinned unpinned.pins, limit, ← limits,
        ← unpinned'.sound.bankFor_of_unpinned unpinned'.pins ops]
      by_cases filled : ops = []
      · rw [filled]
        exact Nat.zero_le _
      · refine unpinned'.sound.span_le_of_isChain (unpinned'.bounded ?_) holds.1 filled
        obtain ⟨first, mem⟩ := exists_mem_of_ne_nil ops filled
        exact (length_pos_of_mem mem).trans_le
          (answers.room.length_le_temp unpinned'.pins mem (virt first mem))
    obtain ⟨fit, fits, agrees⟩ :=
      embeds.below.fitVirtual_eq_ok unpinned.sound unpinned'.sound
        (unpinned.sound.pinsAgree_of_unpinned unpinned.pins ops) virt holds room
    have unnumbered : ¬ (ops.map Slot.register).any isNumbered = true := by
      rw [any_isNumbered_eq_true]
      rintro ⟨r, mem, hardware⟩
      rw [hardwareBank_of_isVirtual (virt r mem)] at hardware
      cases hardware
    have fits' : g.fitOperands ops parity = .ok fit := by
      unfold fitOperands ChainGraph.fit
      rw [if_neg unnumbered]
      exact fits
    obtain ⟨after, commits⟩ :=
      unpinned.sound.commit_of_unpinned unpinned.pins unpinned.bounded fits' via
    exact ⟨fit, after, fits', commits,
      embeds.of_commit unpinned.sound unpinned'.sound holds.1 agrees commits⟩

/-! ### Runs that were committed -/

variable {fit : Fit}

/-- The numbers of registers that fit ascend. -/
theorem Shaped.pinsAscend_of_fit (shaped : g.Shaped)
    (fits : g.fitVirtual (regs.map .register) parity = .ok fit) : g.PinsAscend regs := by
  obtain ⟨_, _, number, _, _, numbers, _⟩ := fitVirtual_eq_ok.mp fits
  obtain ⟨⟨start, numbered⟩, _⟩ := exists_baseNumber_iff.mp ⟨number, numbers⟩
  refine ⟨start, fun i r pin physical placed isPin isNumber => ?_⟩
  obtain ⟨id, named, _⟩ := Option.bind_eq_some_iff.mp isPin
  obtain ⟨n, _, _, pinned, mem⟩ := shaped.mem_members placed named
  refine numbered _ mem physical ?_
  rw [← pinned, isPin]
  exact isNumber

section

variable (sound : g.Sound) (bounded : g.Bounded) (virt : ∀ r ∈ regs, r.isVirtual = true)
  (holds : g.RunHolds regs parity) (ascend : g.PinsAscend regs)

include sound bounded virt holds ascend

/-- Registers on one chain fit. -/
theorem Sound.fitVirtual_of_holds : ∃ fit, g.fitVirtual (regs.map .register) parity = .ok fit := by
  have agree : g.PinsAgree regs := by
    refine ⟨?_, ascend, fun i lo hi one other here there isOne isOther => ?_⟩
    · cases regs with
      | nil => exact ⟨none, forall_mem_nil _⟩
      | cons head rest =>
        refine ⟨g.runBank head, fun r mem => ?_⟩
        obtain ⟨i, placed⟩ := getElem?_of_mem mem
        exact (sound.standing_along holds.1 rfl placed).2.2
    · obtain ⟨_, rfl⟩ := List.getElem?_eq_some_iff.mp here
      obtain ⟨bound, rfl⟩ := List.getElem?_eq_some_iff.mp there
      exact bounded.adjacent _ _ (holds.1.getElem i bound).weaken one other isOne isOther
  have room : g.span regs ≤ g.limit ((g.bankFor regs).getD .temp) := by
    by_cases filled : regs = []
    · rw [filled]
      exact Nat.zero_le _
    · exact sound.span_le_of_isChain bounded holds.1 filled
  obtain ⟨fit, fits, _⟩ := Below.fitVirtual_eq_ok
    ⟨fun _ _ => id, fun _ _ => rfl⟩ sound sound agree virt holds room
  exact ⟨fit, fits⟩

/-- Registers on one chain fit while the last ones are still undecided: the first one tells what
bank they are in. -/
theorem Sound.fitVirtual_opened_of_holds {count : Nat} (positive : 0 < count) :
    ∃ fit, g.fitVirtual (opened count (regs.map .register)) parity = .ok fit := by
  obtain ⟨fit, fits⟩ := sound.fitVirtual_of_holds bounded virt holds ascend
  obtain ⟨count, rfl⟩ := Nat.exists_eq_add_one_of_ne_zero positive.ne'
  cases regs with
  | nil => exact ⟨fit, fits⟩
  | cons head rest =>
    cases rest with
    | nil =>
      rw [opened, map_singleton, take_succ_cons, take_nil, drop_succ_cons, drop_nil]
      exact ⟨fit, fits⟩
    | cons next rest =>
      obtain ⟨id, _, named, _, n, found, _⟩ := (isChain_cons_cons.mp holds.1).1
      have mem : (⟨0, id, n⟩ : Member) ∈ g.membersOf
          (g.existingNodes (opened (count + 1) ((head :: next :: rest).map .register))) :=
        mem_membersOf.mpr ⟨congrArg some named, found⟩
      refine (Part.opened _ _).fitVirtual_of_bank fits mem ?_
      obtain ⟨_, _, _, extent, _, _, _, extents, _, rfl⟩ := fitVirtual_eq_ok.mp fits
      have bank : g.bankFor (head :: next :: rest) = g.runBank head :=
        bankFor_of_uniform (cons_ne_nil _ _) fun r inside => by
          obtain ⟨i, placed⟩ := getElem?_of_mem inside
          exact (sound.standing_along holds.1 rfl placed).2.2
      rw [sound.bank_of_spans (spans_of_foldlM extents), bank, runBank, named, Option.bind_some]

end

/-- A run that was committed has hardware registers and fits again, or it has virtual ones and fits
while the last of them are still undecided. -/
theorem Sound.refits {now : ChainGraph} {via : Bool} (sound : g.Sound) (bounded : g.Bounded)
    (fits : g.fitOperands regs parity = .ok fit)
    (ran : (commit regs fit.parity via).Yields g () after) (refines : after.Refines now) :
    ((∀ r ∈ regs, r.hardwareBank ≠ none) ∧ ∃ fit, now.fitOperands regs parity = .ok fit) ∨
      ((∀ r ∈ regs, r.isVirtual = true) ∧ ∀ count > 0,
        ∃ fit, now.fit (opened count (regs.map .register)) parity = .ok fit) := by
  have grows := (sound.commit_yields ran).1.refines sound
  have limits : ∀ bank, now.limit bank = g.limit bank := fun bank => by
    rw [limit, refines.limits, grows.limits, limit]
  have meets := sound.meets_of_commit fits ran
  unfold fitOperands ChainGraph.fit at fits ⊢
  split at fits
  · next numbered =>
    obtain ⟨first, bank, starts, hardware, ascending, allowed, room, _⟩ := fitNumbered_eq_ok.mp fits
    rw [← limits] at room
    refine .inl ⟨fun r mem => ?_, ?_⟩
    · rw [ascending.hardware hardware r mem]
      exact Option.some_ne_none bank
    · rw [if_pos numbered]
      exact ⟨_,
        fitNumbered_eq_ok.mpr ⟨first, bank, starts, hardware, ascending, allowed, room, rfl⟩⟩
  · next unnumbered =>
    obtain ⟨virt, holds⟩ := meets.resolve_left fun numeric => by
      obtain ⟨first, bank, starts, hardware, _⟩ := numeric
      have no := unnumbered_of_not_any unnumbered first (mem_of_mem_head? starts)
      cases no.symm.trans hardware
    rw [all_eq_true] at virt
    refine .inr ⟨virt, fun count positive => ?_⟩
    rw [if_neg]
    · refine refines.sound.fitVirtual_opened_of_holds (refines.bounded (grows.bounded bounded))
        virt (holds.refines refines) ?_ positive
      obtain ⟨start, ascend⟩ := sound.pinsAscend_of_fit fits
      refine ⟨start, fun i r pin physical placed isPin => ascend i r pin physical placed ?_⟩
      rw [← grows.pin, ← refines.pin]
      exact isPin
    · intro numbered
      obtain ⟨slot, mem, isHardware⟩ := any_eq_true.mp numbered
      rcases mem_append.mp mem with early | late
      · exact unnumbered (any_eq_true.mpr ⟨slot, mem_of_mem_take early, isHardware⟩)
      · obtain ⟨_, _, rfl⟩ := mem_map.mp late
        cases isHardware

end ChainGraph

end RegisterChains

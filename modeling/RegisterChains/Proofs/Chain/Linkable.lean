/-
This file says when two registers can be linked and what the link does, in terms of the
constraints on registers. A link is possible if it is there already, or if nothing that is
mandatory stands where it would go, the two registers agree, and the runs it would join fit
their bank together.
-/

import RegisterChains.Proofs.Chain.Registers

namespace RegisterChains

namespace ChainGraph

open List

variable {g after : ChainGraph} {lo hi r : Register} {mandatory via mustOnly : Bool}
  {pre post pre' post' : List Register} {b a : NodeId} {n : Node}

/-! ### When a link is possible -/

/-- The pins and parities of two registers allow the one to follow the other. -/
def Allows (g : ChainGraph) (lo hi : Register) : Prop :=
  (∀ a b, g.pinAt lo = some a → g.pinAt hi = some b → a.canPrecede b = true) ∧
  (g.parityOf lo = .any ∨ g.parityOf hi = .any ∨ g.parityOf hi = (g.parityOf lo).complement)

/-- Two runs can be made one: they are different, they are not pinned to different banks,
and their bank can hold both. -/
def RoomFor (g : ChainGraph) (front back : List Register) : Prop :=
  front ≠ back ∧
  (∀ a b, g.bankAmong front = some a → g.bankAmong back = some b → a = b) ∧
  front.length + back.length ≤ g.limit ((g.bankAmong front <|> g.bankAmong back).getD .temp)

theorem agrees_iff {pre post : Node} : agrees pre post = true ↔
      (∀ a b, pre.pin = some a → post.pin = some b →
        a.canPrecede b = true) ∧ (pre.parity = .any ∨ post.parity = .any ∨
        post.parity = pre.parity.complement) := by
  unfold agrees
  rw [Bool.and_eq_true]
  refine and_congr ?_ ?_
  · cases pre.pin with
    | none => simp
    | some first =>
      cases post.pin with
      | none => simp
      | some b => simp
  · rw [Bool.or_eq_true, Bool.or_eq_true, Parity.isAny_iff, Parity.isAny_iff, beq_iff_eq, or_assoc]

section

variable (shaped : g.Shaped)

include shaped

theorem Shaped.agrees_iff_allows : (match (g.find lo).bind g.node?, (g.find hi).bind g.node? with
      | some low, some high => agrees low high
      | _, _ => true) = true ↔ g.Allows lo hi := by
  cases lowKnown : g.find lo with
  | none => simp [Allows, parityOf_of_none lowKnown, pinAt_of_none lowKnown]
  | some first =>
    cases highKnown : g.find hi with
    | none => simp [Allows, parityOf_of_none highKnown, pinAt_of_none highKnown]
    | some second =>
      obtain ⟨pre, lowFound, _⟩ := shaped.live_of_find lowKnown
      obtain ⟨post, highFound, _⟩ := shaped.live_of_find highKnown
      rw [Option.bind_some, Option.bind_some, lowFound, highFound]
      unfold Allows
      rw [pinAt_of_find lowKnown lowFound, pinAt_of_find highKnown highFound,
        parityOf_of_find lowKnown lowFound, parityOf_of_find highKnown highFound]
      exact agrees_iff

theorem Shaped.openAfter_iff : (g.find lo).all (g.openAfter mandatory) = true ↔
      ∀ next, ¬ g.Follows mandatory lo next := by
  cases known : g.find lo with
  | none => simp [(Shaped.not_follows_of_none known _).1]
  | some id =>
    obtain ⟨n, found, _⟩ := shaped.live_of_find known
    rw [Option.all_some, openAfter, found]
    show (n.next.isNone || mandatory && n.optionalLink) = true ↔ _
    constructor
    · rintro free next ⟨a, b, named, _, n', found', onward, needed⟩
      cases named.symm.trans known
      cases found.symm.trans found'
      rw [onward] at free
      simp only [Option.isNone_some, Bool.false_or, Bool.and_eq_true] at free
      rw [needed free.1] at free
      cases free.2
    · intro free
      cases onward : n.next with
      | none => rfl
      | some b =>
        obtain ⟨successor, reached, _⟩ := shaped.forward _ _ _ found onward
        have related := free successor.register
        by_contra taken
        refine related ⟨id, b, known, shaped.find_of_node? reached, n, found, onward, ?_⟩
        intro needed
        cases optional : n.optionalLink with
        | false => rfl
        | true => simp [needed, optional] at taken

theorem Shaped.openBefore_iff : (g.find hi).all (g.openBefore mandatory) = true ↔
      ∀ prev, ¬ g.Follows mandatory prev hi := by
  cases known : g.find hi with
  | none => simp [(Shaped.not_follows_of_none known _).2]
  | some id =>
    obtain ⟨n, found, _⟩ := shaped.live_of_find known
    rw [Option.all_some, openBefore, found, Option.bind_some]
    constructor
    · rintro free prev ⟨a, b, _, named, leads⟩
      cases named.symm.trans known
      obtain ⟨_, successor, reached, back⟩ := shaped.live_of_leads leads
      cases found.symm.trans reached
      obtain ⟨n', found', onward, needed⟩ := leads
      rw [back] at free
      simp only [Bool.and_eq_true, optionalAfter, found', Option.any_some] at free
      rw [needed free.1] at free
      cases free.2
    · intro free
      cases back : n.prev with
      | none => rfl
      | some first =>
        obtain ⟨predecessor, reached, onward⟩ := shaped.backward _ _ _ found back
        by_contra taken
        refine free predecessor.register
          ⟨first, id, shaped.find_of_node? reached, known, predecessor, reached, onward, ?_⟩
        intro needed
        cases optional : predecessor.optionalLink with
        | false => rfl
        | true => simp [needed, optional, optionalAfter, reached] at taken

/-- What is seen of the run of a register that may have no node. -/
theorem Shaped.segment_elim (run : IsRun (g.Follows mandatory) (pre ++ r :: post)) :
    let seen := (g.find r).map (g.segment · mandatory)
    seen.bind (·.pinnedBank) = g.bankAmong (pre ++ r :: post) ∧
      seen.elim 1 (fun segment => segment.position + 1) = pre.length + 1 ∧
      seen.elim 1 (fun segment => segment.length - segment.position) = post.length + 1 := by
  cases known : g.find r with
  | some id =>
    obtain ⟨pos, length, bank, _⟩ := shaped.segment_of_run known run
    simp only [Option.map_some, Option.bind_some, Option.elim_some]
    refine ⟨bank, by rw [pos], ?_⟩
    rw [length, pos]
    omega
  | none =>
    have alone := shaped.eq_of_none run known mem_append_cons_self
    have counted := congrArg List.length alone
    rw [length_append, length_cons, length_singleton] at counted
    rw [alone]
    have unpinned : g.bankAmong [r] = none := by
      simp [bankAmong, pinAt_of_none known]
    rw [unpinned]
    refine ⟨rfl, ?_, ?_⟩
    · show 1 = pre.length + 1
      omega
    · show 1 = post.length + 1
      omega

/-- Two runs begin at one node only if they are the same. -/
theorem Shaped.segment_head_eq_iff (run : IsRun (g.Follows mandatory) (pre ++ lo :: post))
    (run' : IsRun (g.Follows mandatory) (pre' ++ hi :: post')) (lowKnown : g.find lo = some a)
    (highKnown : g.find hi = some b) :
    (g.segment a mandatory).head = (g.segment b mandatory).head ↔
      pre ++ lo :: post = pre' ++ hi :: post' := by
  obtain ⟨_, _, _, head⟩ := shaped.segment_of_run lowKnown run
  obtain ⟨_, _, _, head'⟩ := shaped.segment_of_run highKnown run'
  obtain ⟨start, starts, named⟩ := Option.bind_eq_some_iff.mp head
  obtain ⟨start', starts', named'⟩ := Option.bind_eq_some_iff.mp head'
  constructor
  · intro same
    rw [same] at named
    obtain rfl := shaped.find_inj named named'
    exact shaped.eq_of_mem run run' (mem_of_mem_head? starts) (mem_of_mem_head? starts')
  · intro same
    rw [same, starts'] at starts
    cases starts
    exact Option.some_inj.mp (named.symm.trans named')

/-- The runs of two registers are different exactly if their nodes begin different chains. -/
theorem Shaped.heads_differ_iff (distinct : lo ≠ hi)
    (run : IsRun (g.Follows mandatory) (pre ++ [lo]))
    (run' : IsRun (g.Follows mandatory) (hi :: post)) :
    (match (g.find lo).map (g.segment · mandatory), (g.find hi).map (g.segment · mandatory) with
      | some first, some second => decide (first.head ≠ second.head)
      | _, _ => true) = true ↔ pre ++ [lo] ≠ hi :: post := by
  cases lowKnown : g.find lo with
  | none =>
    rw [shaped.eq_of_none run lowKnown mem_append_cons_self]
    simp [distinct]
  | some first =>
    cases highKnown : g.find hi with
    | none =>
      rw [shaped.eq_of_none run' highKnown mem_cons_self]
      simp only [Option.map_some, Option.map_none, true_iff, ne_eq]
      intro same
      have listed : lo ∈ pre ++ [lo] := by simp
      rw [same, mem_singleton] at listed
      exact distinct listed
    | some second =>
      simp only [Option.map_some, decide_eq_true_iff]
      have split : IsRun (g.Follows mandatory) ([] ++ hi :: post) := run'
      exact not_congr (shaped.segment_head_eq_iff run split lowKnown highKnown)

end

section

variable (shaped : g.Shaped) (distinct : lo ≠ hi)
  (run : IsRun (g.Follows mandatory) (pre ++ lo :: post))
  (run' : IsRun (g.Follows mandatory) (pre' ++ hi :: post'))

include shaped distinct run run'

theorem Shaped.runsJoin_iff (ends : post = []) (starts : pre' = []) :
    g.runsJoin ((g.find lo).map (g.segment · mandatory))
      ((g.find hi).map (g.segment · mandatory)) = true ↔
        g.RoomFor (pre ++ lo :: post) (pre' ++ hi :: post') := by
  subst ends starts
  obtain ⟨bank, front, _⟩ := shaped.segment_elim run
  obtain ⟨bank', _, back⟩ := shaped.segment_elim run'
  unfold runsJoin RoomFor
  simp only [Bool.and_eq_true, decide_eq_true_iff]
  rw [bank, bank', front, back, and_assoc, nil_append]
  refine and_congr (shaped.heads_differ_iff distinct run run') (and_congr ?_ ?_)
  · cases g.bankAmong (pre ++ [lo]) with
    | none => simp
    | some one =>
      cases g.bankAmong (hi :: post') with
      | none => simp
      | some other => simp
  · simp only [length_append, length_cons, length_nil]

/-- A link between two registers is possible if the registers agree, their places are free,
and there is room. -/
theorem Shaped.canLink_iff : g.canLink (g.find lo) (g.find hi) mandatory = true ↔
      g.Allows lo hi ∧ post = [] ∧ pre' = [] ∧
        g.RoomFor (pre ++ lo :: post) (pre' ++ hi :: post') := by
  unfold canLink
  rw [Bool.and_eq_true, Bool.and_eq_true, Bool.and_eq_true, shaped.openAfter_iff,
    shaped.openBefore_iff, and_assoc, and_assoc]
  refine and_congr shaped.agrees_iff_allows ?_
  have ends : (∀ next, ¬ g.Follows mandatory lo next) ↔ post = [] := by
    constructor
    · intro free
      cases post with
      | nil => rfl
      | cons next rest => exact absurd (isChain_append_cons_cons.mp run.linked).2.1 (free next)
    · rintro rfl next
      exact run.last lo (by simp) next
  have starts : (∀ prev, ¬ g.Follows mandatory prev hi) ↔ pre' = [] := by
    constructor
    · intro free
      cases pre' using reverseRecOn with
      | nil => rfl
      | append_singleton front prev =>
        have linked := run'.linked
        rw [append_assoc, singleton_append] at linked
        exact absurd (isChain_append_cons_cons.mp linked).2.1 (free prev)
    · rintro rfl prev
      exact run'.first hi rfl prev
  rw [ends, starts]
  refine and_congr_right fun ended => and_congr_right fun started => ?_
  exact shaped.runsJoin_iff distinct run run' ended started

end

/-! ### What a link does -/

/-- How two registers are linked that were not: the optional links in the way are cut, the
registers get nodes, and their chains are joined. -/
structure Connects (g after : ChainGraph) (low high : Register) (mandatory : Bool)
    (trimmed equipped : ChainGraph) (before behind : List Register) : Prop where
  trims : g.Trimmed trimmed
  follows : ∀ mustOnly first second, equipped.Follows mustOnly first second ↔
    trimmed.Follows mustOnly first second
  parity : ∀ reg, equipped.parityOf reg = trimmed.parityOf reg
  sound : equipped.Sound
  grows : trimmed.Grows equipped
  known : ∀ reg, equipped.find reg ≠ none ↔ g.find reg ≠ none ∨ reg = low ∨ reg = high
  ties : equipped.Ties after low high mandatory
  joined : ∀ first second, after.Follows false first second ↔
    equipped.Follows false first second ∨ (first = low ∧ second = high)
  lowRun : IsRun (equipped.Follows false) (before ++ [low])
  highRun : IsRun (equipped.Follows false) (high :: behind)
  apart : before ++ [low] ≠ high :: behind
  /-- Nodes of other chains are left as they are. -/
  elsewhere : ∀ id node, g.node? id = some node → ¬ g.Chained low node.register →
    ¬ g.Chained high node.register → after.node? id = some node

/-- The chains of two registers that can be linked, once optional links are out of the way. -/
theorem Trimmed.run (trims : g.Trimmed after) (firm : mandatory = true → after.Firm lo)
    (whole : mandatory = false → after = g)
    (run : IsRun (g.Follows mandatory) (pre ++ lo :: post)) :
    IsRun (after.Follows false) (pre ++ lo :: post) := by
  cases mandatory with
  | false =>
    rw [whole rfl]
    exact run
  | true =>
    obtain ⟨front, back, chain⟩ := trims.sound.exists_registerRun false lo
    have mem : lo ∈ front ++ lo :: back := mem_append_cons_self
    have mandatoryRun := (firm rfl).run chain mem
    have old : IsRun (after.Follows true) (pre ++ lo :: post) :=
      run.congr (fun _ _ _ => trims.mandatory _ _) fun _ _ _ => trims.mandatory _ _
    rw [trims.sound.eq_of_mem old mandatoryRun mem_append_cons_self mem]
    exact chain

/-- The graph without the optional links that a link may displace around a register. -/
def cleared (g : ChainGraph) (mandatory : Bool) (r : Register) : ChainGraph :=
  (if mandatory then g.dropOptionalOf (g.find r) else ⟨(), g, []⟩).graph

theorem Sound.trimmed_cleared (sound : g.Sound) (mandatory : Bool) (r : Register) :
    g.Trimmed (g.cleared mandatory r) ∧ (mandatory = true → (g.cleared mandatory r).Firm r) ∧
      (mandatory = false → g.cleared mandatory r = g) := by
  cases mandatory with
  | false => exact ⟨sound.trimmed_refl, nofun, fun _ => rfl⟩
  | true =>
    obtain ⟨trims, firm⟩ := sound.trimmed_dropOptionalOf r
    exact ⟨trims, fun _ => firm, nofun⟩

theorem Sound.node?_cleared (sound : g.Sound) (mandatory : Bool) {id : NodeId}
    (found : g.node? id = some n) (apart : ¬ g.Chained r n.register) :
    (g.cleared mandatory r).node? id = some n := by
  cases mandatory with
  | false => exact found
  | true => exact sound.node?_dropOptionalOf found apart

/-- Registers of different chains stay on different ones when links are cut. -/
theorem Trimmed.chained (trims : g.Trimmed after) (sound : g.Sound) {other : Register}
    (chained : after.Chained r other) : g.Chained r other := by
  obtain ⟨ms, run, isMem, mem⟩ := chained
  obtain ⟨pre, post, whole⟩ := sound.exists_registerRun false other
  have here : other ∈ pre ++ other :: post := mem_append_cons_self
  exact ⟨_, whole, trims.part sound whole run here mem r isMem, here⟩

theorem Firm.cleared_eq (sound : g.Sound) (firm : mandatory = true → g.Firm r) :
    g.cleared mandatory r = g := by
  cases mandatory with
  | false => rfl
  | true => exact (firm rfl).dropOptionalOf_eq sound

theorem Trimmed.trans {last : ChainGraph} (first : g.Trimmed after) (second : after.Trimmed last) :
    g.Trimmed last where
  sound := second.sound
  grows := first.grows.trans second.grows
  find r := (second.find r).trans (first.find r)
  mandatory lo hi := (second.mandatory lo hi).trans (first.mandatory lo hi)
  follows lo hi related := first.follows lo hi (second.follows lo hi related)
  parity r := (second.parity r).trans (first.parity r)

theorem connect_graph_eq (trims : g.Trimmed (g.cleared mandatory lo)) :
    (g.connect lo (g.find lo) hi (g.find hi) mandatory via).graph =
      let trimmed := (g.cleared mandatory lo).cleared mandatory hi
      let pre := trimmed.ensure lo
      let post := pre.graph.ensure hi
      post.graph.join pre.result post.result mandatory via := by
  have cutSecond : (if mandatory then
      (g.cleared mandatory lo).dropOptionalOf (g.find hi)
      else ⟨(), g.cleared mandatory lo, []⟩).graph =
        (g.cleared mandatory lo).cleared mandatory hi := by
    rw [← trims.find hi]
    rfl
  unfold connect
  simp only
  rw [← cutSecond]
  rfl

theorem Sound.connects (sound : g.Sound) (distinct : lo ≠ hi)
    (run : IsRun (g.Follows mandatory) (pre ++ [lo]))
    (run' : IsRun (g.Follows mandatory) (hi :: post)) (allows : g.Allows lo hi)
    (apart : pre ++ [lo] ≠ hi :: post) : ∃ equipped, g.Connects
      (g.connect lo (g.find lo) hi (g.find hi) mandatory via).graph
      lo hi mandatory ((g.cleared mandatory lo).cleared mandatory hi) equipped
      pre post := by
  obtain ⟨trimsLow, firmLow, wholeLow⟩ := sound.trimmed_cleared mandatory lo
  obtain ⟨trimsHigh, firmHigh, wholeHigh⟩ := trimsLow.sound.trimmed_cleared mandatory hi
  have spared : ∀ id n, g.node? id = some n → ¬ g.Chained lo n.register →
      ¬ g.Chained hi n.register →
        ((g.cleared mandatory lo).cleared mandatory hi).node? id = some n := by
    intro id n found apartLow apartHigh
    refine trimsLow.sound.node?_cleared mandatory (sound.node?_cleared mandatory found apartLow) ?_
    exact fun chained => apartHigh (trimsLow.chained sound chained)
  rw [connect_graph_eq trimsLow]
  generalize (g.cleared mandatory lo).cleared mandatory hi = trimmed
    at trimsHigh firmHigh wholeHigh spared
  have trims := trimsLow.trans trimsHigh
  have firmLow' : mandatory = true → trimmed.Firm lo := fun needed =>
    (firmLow needed).trimmed trimsLow.sound trimsHigh
  have whole : mandatory = false → trimmed = g := fun optional =>
    (wholeHigh optional).trans (wholeLow optional)
  have lowRun := trims.run firmLow' whole run
  have highRun : IsRun (trimmed.Follows false) ([] ++ hi :: post) := trims.run firmHigh whole run'
  have equips := trims.sound.equipped_ensure lo
  have equips' := equips.sound.equipped_ensure hi
  simp only
  generalize (trimmed.ensure lo).result = first at equips equips'
  generalize (trimmed.ensure lo).graph = half at equips equips'
  generalize (half.ensure hi).result = second at equips'
  generalize (half.ensure hi).graph = equipped at equips'
  have follows : ∀ mustOnly a b, equipped.Follows mustOnly a b ↔
      trimmed.Follows mustOnly a b := fun mustOnly one two =>
    (equips'.follows mustOnly one two).trans (equips.follows mustOnly one two)
  have parity : ∀ r, equipped.parityOf r = trimmed.parityOf r :=
    fun r => (equips'.parity r).trans (equips.parity r)
  have lowRun' : IsRun (equipped.Follows false) (pre ++ lo :: []) :=
    lowRun.congr (fun _ _ _ => follows false _ _) fun _ _ _ => follows false _ _
  have highRun' : IsRun (equipped.Follows false) ([] ++ hi :: post) :=
    highRun.congr (fun _ _ _ => follows false _ _) fun _ _ _ => follows false _ _
  have lowNamed : equipped.find lo = some first := by
    rw [equips'.find, if_neg distinct, equips.find, if_pos rfl]
  have highNamed : equipped.find hi = some second := by
    rw [equips'.find, if_pos rfl]
  obtain ⟨front, none, lowNodes, frontNames, noneNames, _⟩ :=
    equips'.sound.nodes_of_run lowNamed lowRun'
  obtain ⟨none', back, highNodes, noneNames', backNames, _⟩ :=
    equips'.sound.nodes_of_run highNamed highRun'
  obtain rfl := map_eq_nil_iff.mp noneNames
  obtain rfl := map_eq_nil_iff.mp noneNames'
  obtain ⟨lowNode, lowFound, _⟩ := equips'.sound.live_of_find lowNamed
  obtain ⟨highNode, highFound, _⟩ := equips'.sound.live_of_find highNamed
  have joinable : equipped.Joinable first second front back lowNode highNode := by
    refine ⟨lowFound, highFound, lowNodes, highNodes, ?_, ?_⟩
    · intro mem
      have named : hi ∈ pre ++ [lo] := by
        rw [← frontNames]
        rcases mem_append.mp mem with inFront | isFirst
        · exact mem_append_left _
            (mem_map.mpr ⟨second, inFront, equips'.sound.registerOf_find highNamed⟩)
        · rw [mem_singleton.mp isFirst] at highNamed
          exact absurd (equips'.sound.find_inj lowNamed highNamed) distinct
      exact apart (equips'.sound.eq_of_mem lowRun' highRun' named (by simp))
    · have agreed := allows.2
      rw [← trims.parity lo, ← trims.parity hi, ← parity lo, ← parity hi,
        parityOf_of_find lowNamed lowFound, parityOf_of_find highNamed highFound] at agreed
      exact agreed
  have firmLow'' : mandatory = true → equipped.Firm lo := fun needed =>
    ((firmLow' needed).equipped equips).equipped equips'
  have firmHigh' : mandatory = true → equipped.Firm hi := fun needed =>
    ((firmHigh needed).equipped equips).equipped equips'
  have linked : equipped.Linked (equipped.join first second mandatory via) first second
      mandatory := joinable.linked equips'.sound
  refine ⟨equipped, trims, follows, parity, equips'.sound,
    equips.grows.trans equips'.grows, ?_, ?_, ?_, lowRun', highRun', apart, ?_⟩
  · intro r
    rw [equips'.find, equips.find, trims.find]
    by_cases isHigh : r = hi
    · simp [isHigh]
    · by_cases isLow : r = lo
      · rw [if_neg isHigh, if_pos isLow]
        simp [isLow]
      · rw [if_neg isHigh, if_neg isLow]
        simp [isLow, isHigh]
  · exact linked.ties equips'.sound lowNamed highNamed firmLow'' firmHigh'
  · intro one two
    rw [linked.follows_iff equips'.sound lowNamed highNamed]
    simp
  · intro id n found apartLow apartHigh
    have kept := equips'.kept id n (equips.kept id n (spared id n found apartLow apartHigh))
    have same : ∀ r, equipped.Chained r n.register → g.Chained r n.register := by
      rintro r ⟨ms, run, isMem, mem⟩
      refine trims.chained sound ⟨ms, ?_, isMem, mem⟩
      exact run.congr (fun _ _ _ => (follows false _ _).symm) fun _ _ _ => (follows false _ _).symm
    have named := equips'.sound.find_of_node? kept
    refine linked.elsewhere id n kept fun ms run isMem => ⟨fun mem => ?_, fun mem => ?_⟩
    · exact apartLow (same lo ((equips'.sound.chained_registers run lowNamed named mem).mpr isMem))
    · exact apartHigh
        (same hi ((equips'.sound.chained_registers run highNamed named mem).mpr isMem))

/-- Before a link is made, nodes may be added, and links that are not needed cut. -/
theorem Ties.of_kept {mid : ChainGraph} (ties : mid.Ties after lo hi mandatory)
    (grows : g.Grows mid)
    (known : ∀ r, mid.find r ≠ none ∨ r = lo ∨ r = hi ↔ g.find r ≠ none ∨ r = lo ∨ r = hi)
    (demands : ∀ a b, mid.Follows true a b ↔ g.Follows true a b)
    (follows : ∀ a b, mid.Follows false a b → g.Follows false a b)
    (parity : ∀ r, mid.parityOf r = g.parityOf r) : g.Ties after lo hi mandatory where
  sound := ties.sound
  grows := grows.trans ties.grows
  known r := (ties.known r).trans (known r)
  tied := ties.tied
  demands a b := by
    rw [ties.demands, demands]
  follows a b related := (ties.follows a b related).imp_left (follows a b)
  parity r differs := by
    rw [← parity r] at differs
    rw [← parity lo, ← parity hi]
    exact ties.parity r differs

theorem Connects.tiesWhole {trimmed equipped : ChainGraph}
    (connects : g.Connects after lo hi mandatory trimmed equipped pre post) :
    g.Ties after lo hi mandatory := by
  refine connects.ties.of_kept (connects.trims.grows.trans connects.grows) (fun r => ?_)
    (fun a b => ?_) (fun a b related => ?_)
    fun r => (connects.parity r).trans (connects.trims.parity r)
  · rw [connects.known]
    tauto
  · rw [connects.follows, connects.trims.mandatory]
  · exact connects.trims.follows _ _ ((connects.follows false _ _).mp related)

/-! ### Links that are there already -/

/-- A change of a node that keeps its register, its neighbours and its parity. -/
structure Steady (change : Node → Node) : Prop where
  register : ∀ node, (change node).register = node.register := by intro; rfl
  prev : ∀ node, (change node).prev = node.prev := by intro; rfl
  next : ∀ node, (change node).next = node.next := by intro; rfl
  parity : ∀ node, (change node).parity = node.parity := by intro; rfl
  parityMandatory : ∀ node, (change node).parityMandatory = node.parityMandatory := by intro; rfl

/-- A change of what is noted about the link behind a node. -/
structure Annotates (change : Node → Node) : Prop extends Steady change where
  pin : ∀ node, (change node).pin = node.pin := by intro; rfl
  payload : ∀ node, (change node).payload = node.payload := by intro; rfl
  mandatory : ∀ node, node.optionalLink = false → (change node).optionalLink = false

theorem apply_at {β : Type} (field : Node → β) {change : Node → Node}
    (kept : ∀ n, field (change n) = field n) (id other : NodeId) (n : Node) :
    field (if other = id then change n else n) = field n := by
  split
  · exact kept n
  · rfl

section Annotating

variable {id : NodeId} {change : Node → Node}

theorem Sound.steady (sound : g.Sound) (steady : Steady change)
    (ended : ∀ n, g.node? id = some n → n.next = none →
      (change n).optionalLink = false ∧ (change n).instructionLinked = false) :
    (g.update id change).Sound := by
  have recast := recast_update sound.pool id change
  have next := apply_at (·.next) steady.next id
  have parity := apply_at (·.parity) steady.parity id
  have flag := apply_at (·.parityMandatory) steady.parityMandatory id
  refine ⟨sound.toShaped.recast recast rfl (apply_at (·.register) steady.register id)
    (apply_at (·.prev) steady.prev id) next ?_, ⟨?_, ?_⟩⟩
  · intro one n found last
    split
    · next same =>
      subst same
      exact ended n found last
    · exact sound.ended one n found last
  · intro one ch following ch' found onward found'
    obtain ⟨n, orig, rfl⟩ := recast.exists_of_some found
    obtain ⟨successor, original', rfl⟩ := recast.exists_of_some found'
    have steps := sound.steps _ _ _ _ orig ((next one n).symm.trans onward) original'
    rw [← parity one n, ← parity following successor, ← flag one n,
      ← flag following successor] at steps
    exact steps
  · intro one ch found free
    obtain ⟨n, orig, rfl⟩ := recast.exists_of_some found
    exact (flag one n).trans (sound.loose one n orig ((parity one n).symm.trans free))

theorem Sound.annotate (sound : g.Sound) (annotates : Annotates change)
    (found : g.node? id = some n) (linked : n.next ≠ none) : (g.update id change).Sound := by
  refine sound.steady annotates.toSteady fun n' found' last => ?_
  cases found.symm.trans found'
  exact absurd last linked

theorem Annotates.grows (annotates : Annotates change) (pool : g.nodes.Sound) :
    g.Grows (g.update id change) := by
  have recast := recast_update pool id change
  refine recast.grows ?_ ?_
  · intro one n _
    exact ⟨apply_at (·.register) annotates.register id one n,
      apply_at (·.pin) annotates.pin id one n, apply_at (·.payload) annotates.payload id one n,
      fun _ => apply_at (·.parity) annotates.parity id one n⟩
  · rintro a b ⟨n, found, onward, needed⟩
    refine ⟨_, recast.some found, (apply_at (·.next) annotates.next id a n).trans onward,
      fun _ => ?_⟩
    split
    · exact annotates.mandatory n (needed rfl)
    · exact needed rfl

theorem Steady.parityOf (steady : Steady change) (pool : g.nodes.Sound) (r : Register) :
    (g.update id change).parityOf r = g.parityOf r := by
  have recast := recast_update pool id change
  unfold ChainGraph.parityOf
  rw [recast.find]
  cases g.find r with
  | none => rfl
  | some one =>
    rw [Option.bind_some, Option.bind_some, recast.node]
    cases g.node? one with
    | none => rfl
    | some n => exact apply_at (·.parity) steady.parity id one n

theorem Steady.follows_iff (steady : Steady change) (pool : g.nodes.Sound)
    (optional : mustOnly = true → ∀ n, (change n).optionalLink = n.optionalLink) {a b : Register} :
    (g.update id change).Follows mustOnly a b ↔ g.Follows mustOnly a b := by
  have recast := recast_update pool id change
  unfold Follows
  simp only [recast.find]
  refine exists_congr fun one => exists_congr fun two => and_congr_right fun _ =>
    and_congr_right fun _ => recast.leads_iff (apply_at (·.next) steady.next id) ?_
  exact fun only => apply_at (·.optionalLink) (optional only) id

/-- Both ends of a link are known. -/
theorem known_of_find (lowNamed : g.find lo = some a) (highNamed : g.find hi = some b)
    (r : Register) : g.find r ≠ none ↔
      g.find r ≠ none ∨ r = lo ∨ r = hi := by
  refine ⟨.inl, ?_⟩
  rintro (old | rfl | rfl)
  · exact old
  · rw [lowNamed]
    exact Option.some_ne_none a
  · rw [highNamed]
    exact Option.some_ne_none b

theorem Sound.annotate_link (sound : g.Sound) (annotates : Annotates change)
    (leads : g.Leads false id b) :
    (g.update id change).Sound ∧ (g.update id change).Leads false id b := by
  have leads' := ((recast_update sound.pool id change).leads_iff
    (apply_at (·.next) annotates.next id) (fun no => absurd no Bool.false_ne_true)).mpr leads
  obtain ⟨n, found, onward, _⟩ := leads
  refine ⟨sound.annotate annotates found ?_, leads'⟩
  rw [onward]
  exact Option.some_ne_none b

/-- A link that is as strong as it has to be. -/
theorem Sound.ties_refl (sound : g.Sound) (tied : g.Follows false lo hi)
    (strong : mandatory = true → g.Follows true lo hi) : g.Ties g lo hi mandatory := by
  obtain ⟨a, b, lowNamed, highNamed, leads⟩ := tied
  refine ⟨sound, Grows.refl g, known_of_find lowNamed highNamed,
    ⟨a, b, lowNamed, highNamed, leads⟩, ?_, fun _ _ old => .inl old,
    fun _ differs => absurd rfl differs⟩
  intro one other
  refine ⟨.inl, ?_⟩
  rintro (old | ⟨needed, rfl, rfl⟩)
  · exact old
  · exact strong needed

section

variable (sound : g.Sound) (annotates : Annotates change)
  (hardens : ∀ n, (change n).optionalLink = false) (lowNamed : g.find lo = some id)
  (highNamed : g.find hi = some b) (leads : g.Leads false id b)

include sound annotates hardens lowNamed highNamed leads

/-- The mandatory links when the link behind a register is made mandatory. -/
theorem Sound.follows_hardened (one other : Register) :
    (g.update id change).Follows true one other ↔
      g.Follows true one other ∨ (one = lo ∧ other = hi) := by
  have recast := recast_update sound.pool id change
  have next := apply_at (·.next) annotates.next id
  obtain ⟨sound', _⟩ := sound.annotate_link annotates leads
  obtain ⟨n, found, onward, _⟩ := leads
  constructor
  · rintro ⟨source, target, named, named', ch, found', onward', needed⟩
    rw [recast.find] at named named'
    obtain ⟨n', orig, rfl⟩ := recast.exists_of_some found'
    rw [next] at onward'
    by_cases same : source = id
    · subst same
      cases found.symm.trans orig
      cases onward.symm.trans onward'
      exact .inr ⟨sound.find_inj named lowNamed, sound.find_inj named' highNamed⟩
    · rw [if_neg same] at needed
      exact .inl ⟨source, target, named, named', n', orig, onward', needed⟩
  · rintro (old | ⟨rfl, rfl⟩)
    · exact (annotates.grows sound.pool).follows sound.toShaped sound'.toShaped old
    · refine ⟨id, b, (recast.find _).trans lowNamed, (recast.find _).trans highNamed, _,
        recast.some found, (next id n).trans onward, fun _ => ?_⟩
      rw [if_pos rfl]
      exact hardens n

/-- An optional link that becomes mandatory, with the other optional links of its chain cut. -/
theorem Sound.ties_firm : g.Ties ((g.update id change).dropOptional id).graph lo hi true := by
  have recast := recast_update sound.pool id change
  have strong := sound.follows_hardened annotates hardens lowNamed highNamed leads
  obtain ⟨sound', _⟩ := sound.annotate_link annotates leads
  have grows : g.Grows (g.update id change) := annotates.grows sound.pool
  obtain ⟨trims, _⟩ := sound'.trimmed_dropOptionalOf lo
  rw [recast.find, lowNamed] at trims
  change Trimmed _ ((g.update id change).dropOptional id).graph at trims
  have demands : ∀ one other, ((g.update id change).dropOptional id).graph.Follows true one other ↔
        g.Follows true one other ∨ (true = true ∧ one = lo ∧ other = hi) := by
    intro one other
    rw [trims.mandatory, strong]
    simp
  refine ⟨trims.sound, grows.trans trims.grows, ?_, ?_, demands, ?_, ?_⟩
  · intro r
    rw [trims.find, recast.find]
    exact known_of_find lowNamed highNamed r
  · exact ((demands lo hi).mpr (.inr ⟨rfl, rfl, rfl⟩)).weaken
  · intro one other related
    refine .inl ((annotates.follows_iff sound.pool ?_).mp (trims.follows one other related))
    intro no
    cases no
  · intro r differs
    rw [trims.parity] at differs
    exact absurd (annotates.parityOf sound.pool r) differs

end

end Annotating

theorem annotates_instruction : Annotates fun n => { n with instructionLinked := true } :=
  { mandatory := fun _ kept => kept }

theorem annotates_mandatory : Annotates fun n => { n with optionalLink := false } :=
  { mandatory := fun _ _ => rfl }

section

variable (sound : g.Sound) (lowNamed : g.find lo = some a)
  (highNamed : g.find hi = some b) (leads : g.Leads false a b)

include sound lowNamed highNamed leads

theorem Sound.ties_harden (mandatory : Bool) :
    g.Ties (g.strengthen a mandatory false).graph lo hi mandatory := by
  have tied : g.Follows false lo hi := ⟨a, b, lowNamed, highNamed, leads⟩
  unfold strengthen
  by_cases hardens : (mandatory && g.optionalAfter a) = true
  · obtain ⟨rfl, _⟩ := Bool.and_eq_true_iff.mp hardens
    simp only [Bool.false_eq_true, if_false, hardens, if_true]
    exact sound.ties_firm annotates_mandatory (fun _ => rfl) lowNamed highNamed leads
  · simp only [Bool.false_eq_true, if_false, hardens]
    refine sound.ties_refl tied fun needed => ?_
    obtain ⟨n, found, onward, _⟩ := leads
    refine ⟨a, b, lowNamed, highNamed, n, found, onward, fun _ => ?_⟩
    simpa [needed, optionalAfter, found] using hardens

/-- Strengthening a link that is there already. -/
theorem Sound.ties_strengthen (mandatory via : Bool) :
    g.Ties (g.strengthen a mandatory via).graph lo hi mandatory := by
  cases via with
  | false => exact sound.ties_harden lowNamed highNamed leads mandatory
  | true =>
    have find := (recast_update sound.pool a fun n => { n with instructionLinked := true }).find
    obtain ⟨sound', leads'⟩ := sound.annotate_link annotates_instruction leads
    have follows : ∀ must one other, (g.update a fun n =>
        { n with instructionLinked := true }).Follows must one other ↔ g.Follows must one other :=
      fun _ _ _ => annotates_instruction.follows_iff sound.pool fun _ _ => rfl
    exact (sound'.ties_harden ((find lo).trans lowNamed) ((find hi).trans highNamed) leads'
      mandatory).of_kept (annotates_instruction.grows sound.pool) (fun r => by rw [find])
      (follows true) (fun _ _ => (follows false _ _).mp) (annotates_instruction.parityOf sound.pool)

end

/-! ### Links between two registers -/

/-- Two registers are on one chain, next to each other, if their nodes are. -/
theorem follows_iff_next (lowNamed : g.find lo = some a) (highNamed : g.find hi = some b) :
    g.Follows false lo hi ↔ (g.node? a).bind (·.next) = some b := by
  constructor
  · rintro ⟨one, two, named, named', n, found, onward, _⟩
    cases named.symm.trans lowNamed
    cases named'.symm.trans highNamed
    rw [found]
    exact onward
  · intro next
    obtain ⟨n, found, onward⟩ := Option.bind_eq_some_iff.mp next
    exact ⟨a, b, lowNamed, highNamed, leads_next found onward⟩

theorem linkNodes_of_follows (lowNamed : g.find lo = some a) (highNamed : g.find hi = some b)
    (tied : g.Follows false lo hi) :
    g.linkNodes lo (g.find lo) hi (g.find hi) mandatory via =
      ⟨true, (g.strengthen a mandatory via).graph, (g.strengthen a mandatory via).notes⟩ := by
  unfold linkNodes
  rw [lowNamed, highNamed]
  simp only [if_pos ((follows_iff_next lowNamed highNamed).mp tied)]

theorem linkNodes_of_not_follows (apart : ¬ g.Follows false lo hi) :
    g.linkNodes lo (g.find lo) hi (g.find hi) mandatory via =
      if g.canLink (g.find lo) (g.find hi) mandatory then
        g.connect lo (g.find lo) hi (g.find hi) mandatory via
      else ⟨false, g, [.linkRefused lo hi]⟩ := by
  unfold linkNodes
  cases lowNamed : g.find lo with
  | none => rfl
  | some first =>
    cases highNamed : g.find hi with
    | none => rfl
    | some second =>
      simp only [if_neg fun next => apart ((follows_iff_next lowNamed highNamed).mpr next)]

/-- What linking two registers does: nothing, if the link is refused; if it is there
already, it is strengthened; otherwise their chains are joined. -/
theorem Sound.link_cases (sound : g.Sound) (mandatory via : Bool)
    (run : IsRun (g.Follows mandatory) (pre ++ lo :: post))
    (run' : IsRun (g.Follows mandatory) (pre' ++ hi :: post')) :
    let edit := g.link lo hi mandatory via
    (edit.result = false ∧ edit.graph = g ∧ (linkable lo hi = true →
      ¬ g.Follows false lo hi ∧ ¬ (g.Allows lo hi ∧ post = [] ∧ pre' = [] ∧
        g.RoomFor (pre ++ lo :: post) (pre' ++ hi :: post')))) ∨
    (edit.result = true ∧ g.Follows false lo hi ∧ g.Ties edit.graph lo hi mandatory ∧
      ∃ a b, g.find lo = some a ∧ g.find hi = some b ∧ g.Leads false a b ∧
        edit.graph = (g.strengthen a mandatory via).graph) ∨
    (edit.result = true ∧ ¬ g.Follows false lo hi ∧ g.Allows lo hi ∧ post = [] ∧ pre' = [] ∧
      g.RoomFor (pre ++ lo :: post) (pre' ++ hi :: post') ∧
      ∃ equipped, g.Connects edit.graph lo hi mandatory
        ((g.cleared mandatory lo).cleared mandatory hi) equipped pre post') := by
  simp only
  unfold link
  by_cases sensible : linkable lo hi = true
  · rw [if_pos sensible]
    have distinct : lo ≠ hi := by
      rintro rfl
      simp [linkable] at sensible
    by_cases tied : g.Follows false lo hi
    · obtain ⟨a, b, lowNamed, highNamed, leads⟩ := id tied
      rw [linkNodes_of_follows lowNamed highNamed tied]
      exact .inr (.inl ⟨rfl, tied,
        sound.ties_strengthen lowNamed highNamed leads mandatory via,
        a, b, lowNamed, highNamed, leads, rfl⟩)
    · rw [linkNodes_of_not_follows tied]
      have possible := sound.canLink_iff distinct run run'
      by_cases can : g.canLink (g.find lo) (g.find hi) mandatory = true
      · rw [if_pos can]
        obtain ⟨allows, rfl, rfl, room⟩ := possible.mp can
        exact .inr (.inr ⟨rfl, tied, allows, rfl, rfl, room,
          sound.connects distinct run run' allows room.1⟩)
      · rw [if_neg can]
        exact .inl ⟨rfl, rfl, fun _ => ⟨tied, fun room => can (possible.mpr room)⟩⟩
  · rw [if_neg sensible]
    exact .inl ⟨rfl, rfl, fun no => absurd no sensible⟩

/-- A link that is made binds the two registers; one that is refused changes nothing. -/
theorem Sound.link (sound : g.Sound) (lo hi : Register) (mandatory via : Bool) :
    ((g.link lo hi mandatory via).result = true →
      g.Ties (g.link lo hi mandatory via).graph lo hi mandatory) ∧
    ((g.link lo hi mandatory via).result = false →
      (g.link lo hi mandatory via).graph = g) := by
  obtain ⟨pre, post, run⟩ := sound.exists_registerRun mandatory lo
  obtain ⟨pre', post', run'⟩ := sound.exists_registerRun mandatory hi
  rcases sound.link_cases mandatory via run run' with
    ⟨refused, unchanged, _⟩ | ⟨made, _, ties, _⟩ | ⟨made, _, _, _, _, _, _, connects⟩
  · refine ⟨fun made => ?_, fun _ => unchanged⟩
    rw [refused] at made
    cases made
  · refine ⟨fun _ => ties, fun refused => ?_⟩
    rw [made] at refused
    cases refused
  · refine ⟨fun _ => connects.tiesWhole, fun refused => ?_⟩
    rw [made] at refused
    cases refused

theorem Sound.grows_link (sound : g.Sound) (lo hi : Register) (mandatory via : Bool) :
    (g.link lo hi mandatory via).graph.Sound ∧
      g.Grows (g.link lo hi mandatory via).graph := by
  obtain ⟨made, refused⟩ := sound.link lo hi mandatory via
  cases result : (g.link lo hi mandatory via).result with
  | false =>
    rw [refused result]
    exact ⟨sound, .refl g⟩
  | true => exact ⟨(made result).sound, (made result).grows⟩

/-- A link between chains without optional links, or one that is optional itself, cuts
nothing. -/
theorem Sound.link_follows_iff (sound : g.Sound) (firmLow : mandatory = true → g.Firm lo)
    (firmHigh : mandatory = true → g.Firm hi) (made : (g.link lo hi mandatory via).result = true)
    (apart : ¬ g.Follows false lo hi) {a b : Register} :
    (g.link lo hi mandatory via).graph.Follows mustOnly a b ↔ g.Follows mustOnly a b ∨
        (a = lo ∧ b = hi ∧ (mustOnly = true → mandatory = true)) := by
  obtain ⟨pre, post, run⟩ := sound.exists_registerRun mandatory lo
  obtain ⟨pre', post', run'⟩ := sound.exists_registerRun mandatory hi
  rcases sound.link_cases mandatory via run run' with
    ⟨refused, _⟩ | ⟨_, tied, _⟩ | ⟨_, _, _, rfl, rfl, _, equipped, connects⟩
  · cases refused.symm.trans made
  · exact absurd tied apart
  · rw [Firm.cleared_eq sound firmLow, Firm.cleared_eq sound firmHigh] at connects
    cases mustOnly with
    | false => simpa [connects.follows] using connects.joined a b
    | true =>
      rw [connects.ties.demands, connects.follows]
      refine or_congr_right ⟨?_, ?_⟩
      · rintro ⟨needed, isFirst, isSecond⟩
        exact ⟨isFirst, isSecond, fun _ => needed⟩
      · rintro ⟨isFirst, isSecond, needed⟩
        exact ⟨needed rfl, isFirst, isSecond⟩

end ChainGraph

end RegisterChains

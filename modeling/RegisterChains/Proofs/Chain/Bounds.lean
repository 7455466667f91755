/-
This file proves that chains fit their banks. All pins of a chain are in one bank, no chain is
longer than its bank allows, and pins are linked where they can be adjacent. Optional links only
ever join pinned registers, so that a chain which is cut at such links leaves pieces that are
still in the bank of the whole; without that, a piece could turn out too long for the
temporaries.
-/

import RegisterChains.Proofs.Chain.Linkable

namespace RegisterChains

namespace ChainGraph

open List

variable {g after : ChainGraph} {ms regs back post pre : List Register} {r lo hi : Register}
  {fewer : Register → Register → Prop} {limits : BankLimits} {bank : Bank} {pin : Pin}

/-- Chains fit their banks. -/
structure Bounded (g : ChainGraph) : Prop where
  room : ∀ members, IsRun (g.Follows false) members →
    members.length ≤ g.limit ((g.bankAmong members).getD .temp)
  uniform : ∀ members, IsRun (g.Follows false) members →
    ∀ reg ∈ members, ∀ pin, g.pinAt reg = some pin → g.bankAmong members = some pin.bank
  pinned : ∀ low high, g.Follows false low high → ¬ g.Follows true low high →
    g.pinAt low ≠ none ∧ g.pinAt high ≠ none
  adjacent : ∀ low high, g.Follows false low high → ∀ first second,
    g.pinAt low = some first → g.pinAt high = some second → first.canPrecede second = true

/-! ### Banks of lists of registers -/

theorem bankAmong_eq_none : g.bankAmong regs = none ↔ ∀ r ∈ regs, g.pinAt r = none := by
  unfold bankAmong
  rw [findSome?_eq_none_iff]
  simp only [Option.map_eq_none_iff]

theorem exists_of_bankAmong (found : g.bankAmong regs = some bank) :
    ∃ r ∈ regs, ∃ pin, g.pinAt r = some pin ∧ pin.bank = bank := by
  obtain ⟨r, mem, pinned⟩ := exists_of_findSome?_eq_some found
  obtain ⟨pin, isPin, named⟩ := Option.map_eq_some_iff.mp pinned
  exact ⟨r, mem, pin, isPin, named⟩

/-- Pins that are all in one bank give that bank. -/
theorem bankAmong_of_uniform (uniform : ∀ r ∈ regs, ∀ pin, g.pinAt r = some pin → pin.bank = bank)
    (mem : r ∈ regs) (pinned : g.pinAt r ≠ none) : g.bankAmong regs = some bank := by
  cases missing : g.bankAmong regs with
  | none => exact absurd (bankAmong_eq_none.mp missing r mem) pinned
  | some other =>
    obtain ⟨one, isMem, pin, isPin, rfl⟩ := exists_of_bankAmong missing
    rw [uniform one isMem pin isPin]

theorem bankAmong_append (a b : List Register) :
    g.bankAmong (a ++ b) = (g.bankAmong a <|> g.bankAmong b) := by
  unfold bankAmong
  rw [findSome?_append]
  cases findSome? _ a <;> rfl

theorem bankAmong_congr (same : ∀ r ∈ regs, after.pinAt r = g.pinAt r) :
    after.bankAmong regs = g.bankAmong regs := by
  induction regs with
  | nil => rfl
  | cons r rest ih =>
    unfold bankAmong at ih ⊢
    rw [findSome?_cons, findSome?_cons, same r mem_cons_self,
      ih fun one mem => same one (mem_cons_of_mem r mem)]

/-! ### The start -/

theorem Shaped.not_follows_empty : ¬ (empty limits).Follows false lo hi := by
  rintro ⟨a, b, found, _⟩
  cases found

/-- Without links a register is alone, and there is room for one. -/
theorem bounded_empty (room : 1 ≤ limits.get .temp) : (empty limits).Bounded := by
  have alone : ∀ ms, IsRun ((empty limits).Follows false) ms → ∃ r, ms = [r] := by
    intro ms run
    obtain ⟨r, mem⟩ := exists_mem_of_ne_nil ms run.nonempty
    rcases run.alone_or_related mem with alone | ⟨one, follows⟩ | ⟨one, follows⟩
    · exact ⟨r, alone⟩
    · exact absurd follows Shaped.not_follows_empty
    · exact absurd follows Shaped.not_follows_empty
  refine ⟨?_, ?_, ?_, ?_⟩
  · intro ms run
    obtain ⟨r, rfl⟩ := alone ms run
    rw [bankAmong_eq_none.mpr fun _ _ => rfl]
    exact room
  · intro ms run r mem pin isPin
    cases isPin
  · intro lo hi follows
    exact absurd follows Shaped.not_follows_empty
  · intro lo hi follows
    exact absurd follows Shaped.not_follows_empty

/-! ### Cutting chains -/

/-- With fewer links, each run is a part of a chain. -/
theorem Sound.exists_whole (sound : g.Sound) (sub : ∀ lo hi, fewer lo hi → g.Follows false lo hi)
    (run : IsRun fewer ms) : ∃ left back, IsRun (g.Follows false) (left ++ ms ++ back) := by
  obtain ⟨r, mem⟩ := exists_mem_of_ne_nil ms run.nonempty
  obtain ⟨pre, post, chain⟩ := sound.exists_registerRun false r
  obtain ⟨left, back, whole⟩ := chain.isInfix_of_mem (sound.follows_leftUnique false)
    (sound.follows_rightUnique false) sub run mem_append_cons_self mem
  exact ⟨left, back, whole ▸ chain⟩

/-- All pins of some registers are in one bank. -/
def OneBank (g : ChainGraph) (regs : List Register) : Prop :=
  ∀ r ∈ regs, ∀ pin, g.pinAt r = some pin → g.bankAmong regs = some pin.bank

/-- A part of a chain in which all pins are in one bank is in the bank of any pin in it. -/
theorem OneBank.part {left : List Register} (oneBank : g.OneBank (left ++ ms ++ back)) :
    g.OneBank ms := by
  have isMem : ∀ one ∈ ms, one ∈ left ++ ms ++ back := fun one isMember =>
    mem_append_left _ (mem_append_right _ isMember)
  intro r mem pin isPin
  refine bankAmong_of_uniform (fun other isMember pin' isPin' => ?_) mem
    (Option.ne_none_iff_exists'.mpr ⟨pin, isPin⟩)
  exact Option.some_inj.mp ((oneBank other (isMem other isMember) pin' isPin').symm.trans
    (oneBank r (isMem r mem) pin isPin))

theorem OneBank.bankAmong_part {left : List Register} (oneBank : g.OneBank (left ++ ms ++ back))
    (mem : r ∈ ms) (isPin : g.pinAt r = some pin) :
    g.bankAmong ms = g.bankAmong (left ++ ms ++ back) :=
  (oneBank.part r mem pin isPin).trans
    (oneBank r (mem_append_left _ (mem_append_right _ mem)) pin isPin).symm

/-- A part of a chain that is not the whole has a pin, so that it is in the same bank. -/
theorem Bounded.part (bounded : g.Bounded) (sound : g.Sound)
    (sub : ∀ lo hi, fewer lo hi → g.Follows false lo hi)
    (kept : ∀ lo hi, g.Follows true lo hi → fewer lo hi) (run : IsRun fewer ms) :
    g.OneBank ms ∧ ms.length ≤ g.limit ((g.bankAmong ms).getD .temp) := by
  obtain ⟨left, back, chain⟩ := sound.exists_whole sub run
  have oneBank : g.OneBank _ := bounded.uniform _ chain
  refine ⟨oneBank.part, ?_⟩
  have bound := bounded.room _ chain
  simp only [length_append] at bound
  -- At an end where the part was cut off, the register is pinned.
  by_cases isWhole : left = [] ∧ back = []
  · obtain ⟨rfl, rfl⟩ := isWhole
    rw [nil_append, append_nil] at bound
    simpa using bound
  · obtain ⟨one, mem, pinned⟩ : ∃ one ∈ ms, g.pinAt one ≠ none := by
      rcases not_and_or.mp isWhole with cutLeft | cutRight
      · obtain ⟨start, previous, rfl⟩ := (eq_nil_or_concat left).resolve_left cutLeft
        obtain ⟨one, rest, listed⟩ := exists_cons_of_ne_nil run.nonempty
        have linked := chain.linked
        rw [listed, concat_eq_append, append_assoc, append_assoc,
          singleton_append, cons_append] at linked
        have cut : g.Follows false previous one := (isChain_append_cons_cons.mp linked).2.1
        refine ⟨one, by rw [listed]; exact mem_cons_self, ?_⟩
        refine (bounded.pinned previous one cut fun must => ?_).2
        exact run.first one (by rw [listed]; rfl) previous (kept _ _ must)
      · obtain ⟨next, tail, rfl⟩ := exists_cons_of_ne_nil cutRight
        obtain ⟨start, one, listed⟩ := (eq_nil_or_concat _).resolve_left run.nonempty
        have linked := chain.linked
        rw [listed, concat_eq_append, ← append_assoc, append_assoc, singleton_append] at linked
        have cut : g.Follows false one next := (isChain_append_cons_cons.mp linked).2.1
        refine ⟨one, by rw [listed]; simp, ?_⟩
        refine (bounded.pinned one next cut fun must => ?_).1
        exact run.last one (by rw [listed]; simp) next (kept _ _ must)
    obtain ⟨pin, isPin⟩ := Option.ne_none_iff_exists'.mp pinned
    rw [oneBank.bankAmong_part mem isPin]
    omega

/-- The mandatory runs fit their banks. -/
theorem Bounded.mandatory_room (bounded : g.Bounded) (sound : g.Sound)
    (run : IsRun (g.Follows true) ms) : ms.length ≤ g.limit ((g.bankAmong ms).getD .temp) :=
  (bounded.part sound (fun _ _ follows => follows.weaken) (fun _ _ follows => follows) run).2

theorem Bounded.mandatory_uniform (bounded : g.Bounded) (sound : g.Sound)
    (run : IsRun (g.Follows true) ms) (mem : r ∈ ms) (isPin : g.pinAt r = some pin) :
    g.bankAmong ms = some pin.bank :=
  (bounded.part sound (fun _ _ follows => follows.weaken) (fun _ _ follows => follows) run).1
    r mem pin isPin

theorem Grows.limit (grows : g.Grows after) (bank : Bank) : after.limit bank = g.limit bank := by
  rw [ChainGraph.limit, grows.limits, ChainGraph.limit]

/-- Chains still fit their banks when links are cut, and when registers get nodes. -/
theorem Bounded.shrink (bounded : g.Bounded) (sound : g.Sound) (sound' : after.Sound)
    (grows : g.Grows after) (sub : ∀ lo hi, after.Follows false lo hi → g.Follows false lo hi) :
    after.Bounded := by
  have kept : ∀ lo hi, g.Follows true lo hi → after.Follows false lo hi :=
    fun _ _ follows => (grows.follows sound.toShaped sound'.toShaped follows).weaken
  have pins := grows.pinAt sound.toShaped sound'.toShaped
  have banks := grows.bankAmong sound.toShaped sound'.toShaped
  refine ⟨?_, ?_, ?_, ?_⟩
  · intro ms run
    rw [banks, grows.limit]
    exact (bounded.part sound sub kept run).2
  · intro ms run r mem pin isPin
    rw [pins] at isPin
    rw [banks]
    exact (bounded.part sound sub kept run).1 r mem pin isPin
  · intro lo hi follows optional
    rw [pins, pins]
    exact bounded.pinned lo hi (sub lo hi follows) fun must =>
      optional (grows.follows sound.toShaped sound'.toShaped must)
  · intro lo hi follows a b
    rw [pins, pins]
    exact bounded.adjacent lo hi (sub lo hi follows) a b

/-! ### Joining chains -/

/-- Two chains with room for each other are joined by a link. -/
structure Unites (g after : ChainGraph) (low high : Register) (mandatory : Bool)
    (before behind : List Register) : Prop where
  ties : g.Ties after low high mandatory
  joined : ∀ first second, after.Follows false first second ↔
    g.Follows false first second ∨ (first = low ∧ second = high)
  lowRun : IsRun (g.Follows false) (before ++ [low])
  highRun : IsRun (g.Follows false) (high :: behind)
  room : g.RoomFor (before ++ [low]) (high :: behind)

section

variable {must : Bool} (unites : g.Unites after lo hi must pre post) (sound : g.Sound)

include unites sound

/-- When two chains are joined, a chain is the joined one or an old one. -/
theorem Unites.run (run : IsRun (after.Follows false) ms) :
    ms = pre ++ [lo] ++ hi :: post ∨ IsRun (g.Follows false) ms := by
  have disjoint : ∀ r, r ∈ pre ++ [lo] → r ∈ hi :: post → False :=
    fun r mem mem' => unites.room.1 (sound.eq_of_mem unites.lowRun unites.highRun mem mem')
  have final : (pre ++ [lo]).getLast? = some lo := by simp
  have merged : IsRun (after.Follows false) (pre ++ [lo] ++ hi :: post) := by
    refine unites.lowRun.append unites.highRun final rfl unites.joined ?_ ?_
    · rintro elem starts rfl
      exact disjoint elem (mem_of_mem_head? starts) mem_cons_self
    · rintro elem ends rfl
      exact disjoint elem (by simp) (mem_of_mem_getLast? ends)
  by_cases withEnd : lo ∈ ms ∨ hi ∈ ms
  · left
    rcases withEnd with withLow | withHigh
    · exact unites.ties.sound.eq_of_mem run merged withLow (by simp)
    · exact unites.ties.sound.eq_of_mem run merged withHigh (by simp)
  · right
    rw [not_or] at withEnd
    refine run.congr ?_ ?_
    · intro elem mem next
      have notLow : elem ≠ lo := fun same => withEnd.1 (same ▸ mem)
      rw [unites.joined]
      simp [notLow]
    · intro elem mem previous
      have notHigh : elem ≠ hi := fun same => withEnd.2 (same ▸ mem)
      rw [unites.joined]
      simp [notHigh]

/-- All pins of the joined chain are in one bank. -/
theorem Unites.oneBank (uniform : ∀ ms, IsRun (g.Follows false) ms → g.OneBank ms)
    (run : IsRun (after.Follows false) ms) : after.OneBank ms := by
  intro r mem pin isPin
  rw [unites.ties.grows.pinAt sound.toShaped unites.ties.sound.toShaped] at isPin
  rw [unites.ties.grows.bankAmong sound.toShaped unites.ties.sound.toShaped]
  rcases unites.run sound run with rfl | old
  · rw [bankAmong_append]
    rcases mem_append.mp mem with inFront | inBack
    · rw [uniform _ unites.lowRun r inFront pin isPin]
      rfl
    · have here := uniform _ unites.highRun r inBack pin isPin
      cases there : g.bankAmong (pre ++ [lo]) with
      | none => exact here
      | some bank => exact congrArg some (unites.room.2.1 bank pin.bank there here)
  · exact uniform ms old r mem pin isPin

/-- Chains still fit their banks when two of them are joined that have room together. -/
theorem Bounded.join (bounded : g.Bounded)
    (adjacent : ∀ a b, g.pinAt lo = some a → g.pinAt hi = some b → a.canPrecede b = true)
    (pinned : must = true ∨ (g.pinAt lo ≠ none ∧ g.pinAt hi ≠ none)) : after.Bounded := by
  have pins := unites.ties.grows.pinAt sound.toShaped unites.ties.sound.toShaped
  refine ⟨fun ms run => ?_, fun ms run => unites.oneBank sound bounded.uniform run, ?_, ?_⟩
  · rw [unites.ties.grows.bankAmong sound.toShaped unites.ties.sound.toShaped,
      unites.ties.grows.limit]
    rcases unites.run sound run with rfl | old
    · rw [bankAmong_append, length_append]
      exact unites.room.2.2
    · exact bounded.room ms old
  · intro a b follows optional
    rw [pins, pins]
    rcases (unites.joined a b).mp follows with old | ⟨rfl, rfl⟩
    · refine bounded.pinned a b old fun strong => optional ?_
      exact (unites.ties.demands a b).mpr (.inl strong)
    · rcases pinned with needed | both
      · exact absurd ((unites.ties.demands a b).mpr (.inr ⟨needed, rfl, rfl⟩)) optional
      · exact both
  · intro a b follows pin pin'
    rw [pins, pins]
    rcases (unites.joined a b).mp follows with old | ⟨rfl, rfl⟩
    · exact bounded.adjacent a b old pin pin'
    · exact adjacent pin pin'

end

/-- Whatever stays when links are cut and when chains are joined that have room together, stays
when a link is asked for. -/
theorem Sound.link_of_unites {motive : ChainGraph → Prop} (sound : g.Sound) (lo hi : Register)
    (must via : Bool)
    (cut : ∀ {after}, after.Sound → g.Grows after →
      (∀ a b, after.Follows false a b → g.Follows false a b) → motive after)
    (join : ∀ {equipped pre post after}, equipped.Sound → g.Grows equipped → g.Allows lo hi →
      motive equipped → equipped.Unites after lo hi must pre post → motive after) :
    motive (g.link lo hi must via).graph := by
  obtain ⟨pre, post, run⟩ := sound.exists_registerRun must lo
  obtain ⟨pre', post', run'⟩ := sound.exists_registerRun must hi
  rcases sound.link_cases must via run run' with
    ⟨_, unchanged, _⟩ | ⟨_, tied, ties, _⟩ |
    ⟨_, _, allows, rfl, rfl, room, equipped, connects⟩
  · rw [unchanged]
    exact cut sound (.refl g) fun _ _ => id
  · -- The link is there already. To make it stronger only cuts other ones.
    refine cut ties.sound ties.grows fun a b follows => ?_
    rcases ties.follows a b follows with old | ⟨rfl, rfl⟩
    · exact old
    · exact tied
  · have grows := connects.trims.grows.trans connects.grows
    have banks := grows.bankAmong sound.toShaped connects.sound.toShaped
    refine join connects.sound grows allows (cut connects.sound grows fun a b follows =>
      connects.trims.follows a b ((connects.follows false a b).mp follows))
      ⟨connects.ties, connects.joined, connects.lowRun, connects.highRun, ?_⟩
    unfold RoomFor
    rw [banks, banks, grows.limit]
    exact room

/-- Chains still fit their banks after a link is asked for. -/
theorem Bounded.link (bounded : g.Bounded) (sound : g.Sound) (lo hi : Register) (must via : Bool)
    (pinned : must = true ∨ (g.pinAt lo ≠ none ∧ g.pinAt hi ≠ none)) :
    (g.link lo hi must via).graph.Bounded := by
  refine sound.link_of_unites lo hi must via
    (fun sound' grows sub => bounded.shrink sound sound' grows sub)
    fun sound' grows allows bounded' unites => ?_
  have pins := grows.pinAt sound.toShaped sound'.toShaped
  refine Bounded.join unites sound' bounded' ?_ ?_
  · rw [pins, pins]
    exact allows.1
  · rw [pins, pins]
    exact pinned

end ChainGraph

end RegisterChains

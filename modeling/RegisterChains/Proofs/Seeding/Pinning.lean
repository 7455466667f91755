/-
This file is about pinning the members of descriptors. While descriptors are seeded, links
join pinned registers only, so a register that is about to be pinned is still alone: its pin
cannot clash with the bank of a chain it is already on. A register that is pinned to a
number has the parity of that number.
-/

import RegisterChains.Seeding
import RegisterChains.Proofs.Cache

namespace RegisterChains

open Seeding Tracking

namespace ChainGraph

open Step

variable {g after : ChainGraph} {r : Register} {pin : Pin} {prev : Option Register} {id : NodeId}
  {desc : Descriptor}

/-! ### Graphs in which only pinned registers are linked -/

/-- What holds of a graph while descriptors are seeded. -/
structure Pinned (g : ChainGraph) : Prop where
  sound : g.Sound
  bounded : (∀ bank, 1 ≤ g.limit bank) → g.Bounded
  unmarked : Unmarked g
  linked : ∀ low high, g.Follows false low high → g.pinAt low ≠ none ∧ g.pinAt high ≠ none

/-- Registers that are pinned to a number have its parity. -/
def NumbersFit (g : ChainGraph) : Prop :=
  ∀ r pin number, g.pinAt r = some pin → pin.physical = some number →
    g.parityOf r = .ofNumber number

theorem ofNumber_ne_any (number : UInt32) : Parity.ofNumber number ≠ .any := by
  unfold Parity.ofNumber
  split <;> simp

theorem NumbersFit.refines (fit : g.NumbersFit) (refines : g.Refines after) : after.NumbersFit := by
  intro r pin number isPin physical
  rw [refines.pin] at isPin
  have pre := fit r pin number isPin physical
  rw [refines.parity r (by rw [pre]; exact ofNumber_ne_any number), pre]

theorem pinned_empty (limits : BankLimits) : (empty limits).Pinned where
  sound := sound_empty limits
  bounded roomy := bounded_empty (roomy .temp)
  unmarked _ _ _ found := by cases found
  linked lo hi follows := absurd follows Shaped.not_follows_empty

theorem numbersFit_empty (limits : BankLimits) : (empty limits).NumbersFit := by
  intro r pin number isPin
  cases isPin

namespace Pinned

section

variable (pinned : g.Pinned)

include pinned

theorem alike (alike : g.Alike after) (unmarked : Unmarked after) : after.Pinned where
  sound := alike.sound
  bounded roomy := alike.bounded (pinned.bounded fun bank => alike.limit bank ▸ roomy bank)
  unmarked := unmarked
  linked lo hi follows := by
    rw [alike.pin, alike.pin]
    exact pinned.linked lo hi ((alike.follows false lo hi).mp follows)

theorem settles (settles : g.Settles after) : after.Pinned where
  sound := settles.sound
  bounded roomy := (settles.evolves pinned.sound).bounded
    (pinned.bounded fun bank => settles.grows.limit bank ▸ roomy bank)
  unmarked := pinned.unmarked.grows settles.grows
  linked lo hi follows := by
    have pins := settles.grows.pinAt pinned.sound.toShaped settles.sound.toShaped
    rw [pins, pins]
    exact pinned.linked lo hi ((settles.follows_iff pinned.sound).mp follows)

theorem link {lo hi : Register} (lowPinned : g.pinAt lo ≠ none) (highPinned : g.pinAt hi ≠ none)
    (must via : Bool) : (g.link lo hi must via).graph.Pinned := by
  have evolves := pinned.sound.evolves_link lo hi must via (.inr ⟨lowPinned, highPinned⟩)
  have pins := evolves.grows.pinAt pinned.sound.toShaped evolves.sound.toShaped
  refine ⟨evolves.sound, fun roomy => evolves.bounded (pinned.bounded fun bank => ?_),
    pinned.unmarked.grows evolves.grows, fun a b follows => ?_⟩
  · rw [← evolves.grows.limit]
    exact roomy bank
  · rw [pins, pins]
    obtain ⟨made, refused⟩ := pinned.sound.link lo hi must via
    cases result : (g.link lo hi must via).result with
    | false =>
      rw [refused result] at follows
      exact pinned.linked a b follows
    | true =>
      rcases (made result).follows a b follows with old | ⟨rfl, rfl⟩
      · exact pinned.linked a b old
      · exact ⟨lowPinned, highPinned⟩

/-- A register that is not pinned yet is alone. -/
theorem alone (unpinned : g.pinAt r = none) {ms : List Register}
    (run : IsRun (g.Follows false) ms) (mem : r ∈ ms) : ms = [r] := by
  rcases run.alone_or_related mem with alone | ⟨one, follows⟩ | ⟨one, follows⟩
  · exact alone
  · exact absurd unpinned (pinned.linked _ _ follows).1
  · exact absurd unpinned (pinned.linked _ _ follows).2

end

end Pinned

/-! ### Pinning a register -/

theorem labels_attach (kind : DescriptorKind) (pin : Pin) : Labels (attach kind pin) :=
  {}

theorem Sound.pinAt_attach (sound : g.Sound) (named : g.find r = some id) (kind : DescriptorKind)
    (pin : Pin) (other : Register) : (g.update id (attach kind pin)).pinAt other =
      if other = r then some pin else g.pinAt other := by
  rw [sound.pinAt_update]
  have same : g.find other = some id ↔ other = r :=
    ⟨fun found => sound.find_inj found named, fun equal => equal ▸ named⟩
  simp only [same]
  split
  · obtain ⟨n, found, _⟩ := sound.live_of_find named
    rw [found]
    rfl
  · rfl

theorem unmarked_attach (sound : g.Sound) (unmarked : Unmarked g) (id : NodeId)
    (kind : DescriptorKind) (pin : Pin) : Unmarked (g.update id (attach kind pin)) := by
  intro node n mark isNode
  obtain ⟨pre, isBefore, rfl⟩ :=
    (recast_update sound.pool id (attach kind pin)).exists_of_some isNode
  have old := unmarked node pre mark isBefore
  split
  · unfold attach
    dsimp only
    split
    · exact fun same => by cases same
    · exact old
  · exact old

section

variable (pinned : g.Pinned)

include pinned

theorem Pinned.attach (unpinned : g.pinAt r = none) (named : g.find r = some id)
    (kind : DescriptorKind) (pin : Pin) : (g.update id (Seeding.attach kind pin)).Pinned := by
  have labels := labels_attach kind pin
  have follows := labels.follows_iff pinned.sound id false
  have same : (g.update id (Seeding.attach kind pin)).Follows false = g.Follows false := by
    funext lo hi
    exact propext (follows lo hi)
  have pins := pinned.sound.pinAt_attach named kind pin
  have kept : ∀ one, g.pinAt one ≠ none →
      (g.update id (Seeding.attach kind pin)).pinAt one ≠ none := by
    intro one old
    rw [pins]
    split
    · exact Option.some_ne_none pin
    · exact old
  have elsewhere : ∀ ms, r ∉ ms →
      (g.update id (Seeding.attach kind pin)).bankAmong ms = g.bankAmong ms := by
    intro ms outside
    refine bankAmong_congr fun one isMem => ?_
    rw [pins, if_neg]
    rintro rfl
    exact outside isMem
  refine ⟨pinned.sound.label labels id, fun roomy => ⟨?_, ?_, ?_, ?_⟩, ?_, ?_⟩
  · intro ms run
    rw [same] at run
    by_cases isMem : r ∈ ms
    · rw [pinned.alone unpinned run isMem]
      exact roomy _
    · rw [elsewhere ms isMem]
      exact (pinned.bounded roomy).room ms run
  · intro ms run one isMem found isPin
    rw [same] at run
    by_cases mem : r ∈ ms
    · obtain rfl := pinned.alone unpinned run mem
      rw [List.mem_singleton] at isMem
      rw [bankAmong, List.findSome?_singleton, ← isMem, isPin]
      rfl
    · have apart : one ≠ r := by
        rintro rfl
        exact mem isMem
      rw [pins, if_neg apart] at isPin
      rw [elsewhere ms mem]
      exact (pinned.bounded roomy).uniform ms run one isMem found isPin
  · intro lo hi related _
    rw [same] at related
    obtain ⟨lowPinned, highPinned⟩ := pinned.linked lo hi related
    exact ⟨kept lo lowPinned, kept hi highPinned⟩
  · intro lo hi related a b
    rw [same] at related
    obtain ⟨lowPinned, highPinned⟩ := pinned.linked lo hi related
    have apart : ∀ one, g.pinAt one ≠ none → one ≠ r := by
      rintro one old rfl
      exact old unpinned
    rw [pins, pins, if_neg (apart lo lowPinned), if_neg (apart hi highPinned)]
    exact (pinned.bounded roomy).adjacent lo hi related a b
  · exact unmarked_attach pinned.sound pinned.unmarked id kind pin
  · intro lo hi related
    rw [same] at related
    obtain ⟨lowPinned, highPinned⟩ := pinned.linked lo hi related
    exact ⟨kept lo lowPinned, kept hi highPinned⟩

/-- A register that was not pinned gets its node and its pin. -/
theorem Pinned.attached (unpinned : g.pinAt r = none) {equipped : ChainGraph}
    (creates : (create r).Yields g id equipped) (kind : DescriptorKind) (pin : Pin) :
    equipped.find r = some id ∧ (equipped.update id (Seeding.attach kind pin)).Pinned ∧
      (equipped.update id (Seeding.attach kind pin)).find r = some id := by
  have alike := pinned.sound.alike_create creates
  obtain ⟨_, rfl, rfl⟩ := create_yields.mp creates
  have named := pinned.sound.find_ensure r
  have unmarked := pinned.unmarked.grows (pinned.sound.equipped_ensure r).grows
  exact ⟨named, (pinned.alike alike unmarked).attach ((alike.pin r).trans unpinned) named
    kind pin, ((recast_update alike.sound.pool _ (Seeding.attach kind pin)).find r).trans
    named⟩

/-- A parity that is granted to a pinned register keeps all else. -/
theorem Pinned.demand (named : g.find r = some id) {parity : Parity} {must : Bool}
    (ran : (demandParity id parity must).Yields g true after) :
    after.Pinned ∧ g.Refines after ∧ after.find r = some id ∧
    (parity ≠ .any → after.parityOf r = parity) := by
  obtain ⟨settles, granted⟩ := pinned.sound.demandParity_granted named ran
  exact ⟨pinned.settles settles, (settles.evolves pinned.sound).refines pinned.sound,
    (settles.find pinned.sound r).trans named, granted⟩

theorem Pinned.linkMember {advisory : Bool} (here : g.pinAt r ≠ none)
    (pre : ∀ first ∈ prev, g.pinAt first ≠ none) (unlinked : prev = none → after = g)
    (linked : ∀ first ∈ prev, after = (g.link first r (!advisory) false).graph) :
    after.Pinned ∧ g.Refines after := by
  cases prev with
  | none =>
    obtain rfl := unlinked rfl
    exact ⟨pinned, pinned.sound.refines_refl⟩
  | some first =>
    have firstPinned := pre first rfl
    obtain rfl := linked first rfl
    exact ⟨pinned.link firstPinned here _ _, (pinned.sound.evolves_link first r _ false
      (.inr ⟨firstPinned, here⟩)).refines pinned.sound⟩

end

/-- A demand that is left out is a demand for any parity. -/
theorem pinMember_eq (desc : Descriptor) (r : Register) (pin : Pin) (prev : Option Register) :
    pinMember desc r pin prev = (do
      let id ← create r
      modify (·.update id (attach desc.kind pin))
      let numbered ← demandParity id (pin.physical.elim .any .ofNumber) false
      let aligned ← demandParity id (if pin.offset = 0 then desc.parity else .any) true
      if !numbered || !aligned then
        Step.contradict (.seedParity r pin.binding)
      if let some first := prev then
        if !(← ChainGraph.apply (·.link first r (!desc.advisory) false)) then
          Step.contradict (.seedLink r first pin.binding)
      Step.report (.bound r pin.offset pin.binding)) := by
  unfold pinMember
  cases physical : pin.physical with
  | none | some number =>
    by_cases isFirst : pin.offset = 0
    · simp only [isFirst, if_true]
      rfl
    · simp only [isFirst, if_false]
      rfl

/-- The steps in which a member is pinned: it gets a node, its pin, the parity of its number,
the parity of its descriptor if it is the first one, and a link behind the member before it. -/
theorem pinMember_yields (ran : (pinMember desc r pin prev).Yields g () after) :
    ∃ id equipped numbered aligned, (create r).Yields g id equipped ∧
      (demandParity id (pin.physical.elim .any .ofNumber) false).Yields
        (equipped.update id (attach desc.kind pin)) true numbered ∧
      (demandParity id (if pin.offset = 0 then desc.parity else .any) true).Yields
        numbered true aligned ∧ (prev = none → after = aligned) ∧
      ∀ first ∈ prev, (aligned.link first r (!desc.advisory) false).result = true ∧
        after = (aligned.link first r (!desc.advisory) false).graph := by
  rw [pinMember_eq] at ran
  obtain ⟨id, equipped, creates, ran⟩ := yields_bind.mp ran
  rw [yields_modify_bind] at ran
  obtain ⟨numbered, atNumber, demands, ran⟩ := yields_bind.mp ran
  obtain ⟨aligned, atParity, demands', ran⟩ := yields_bind.mp ran
  obtain ⟨accepted, ran⟩ := yields_unless_contradict.mp ran
  obtain ⟨rfl, rfl⟩ : numbered = true ∧ aligned = true := by simpa using accepted
  refine ⟨id, equipped, atNumber, atParity, creates, demands, demands', ?_, ?_⟩
  · rintro rfl
    exact yields_report.mp ran
  · rintro first rfl
    obtain ⟨made, linked, links, rest⟩ := yields_bind.mp ran
    obtain ⟨rfl, rfl⟩ := apply_yields.mp links
    obtain ⟨granted, rest⟩ := yields_unless_contradict.mp rest
    exact ⟨by simpa using granted, yields_report.mp rest⟩

/-- A register has got its pin, and no other register has. -/
structure Attaches (g : ChainGraph) (reg : Register) (pin : Pin) (after : ChainGraph) :
    Prop where
  sound : after.Sound
  unmarked : Unmarked after
  limits : after.limits = g.limits
  pins : ∀ other, after.pinAt other = if other = reg then some pin else g.pinAt other

section

variable {mid : ChainGraph} (attaches : g.Attaches r pin mid)

include attaches

theorem Attaches.grows (sound : after.Sound) (grows : mid.Grows after) :
    g.Attaches r pin after where
  sound := sound
  unmarked := attaches.unmarked.grows grows
  limits := grows.limits.trans attaches.limits
  pins one :=
    (grows.pinAt attaches.sound.toShaped sound.toShaped one).trans (attaches.pins one)

theorem Attaches.link (lo hi : Register) (must via : Bool) :
    g.Attaches r pin (mid.link lo hi must via).graph := by
  obtain ⟨sound, grows⟩ := attaches.sound.grows_link lo hi must via
  exact attaches.grows sound grows

theorem Attaches.demandParity (id : NodeId) (parity : Parity) (must : Bool) :
    g.Attaches r pin ((ChainGraph.demandParity id parity must).leaves mid) := by
  have evolves := attaches.sound.evolves_demandParity id parity must
  exact attaches.grows evolves.sound evolves.grows

end

/-- A register that can have a node has its pin from then on, even if what else its descriptor
asks for is refused. -/
theorem Sound.attaches_pinMember (sound : g.Sound) (unmarked : Unmarked g)
    (virt : r.isVirtual = true) : g.Attaches r pin ((pinMember desc r pin prev).leaves g) := by
  have creates : (create r).Yields g _ _ := create_yields.mpr ⟨virt, rfl, rfl⟩
  have alike := sound.alike_create creates
  have named := sound.find_ensure r
  have attached : g.Attaches r pin ((g.ensure r).graph.update _ (attach desc.kind pin)) :=
    ⟨alike.sound.label (labels_attach desc.kind pin) _, unmarked_attach alike.sound
        (unmarked.grows (sound.equipped_ensure r).grows) _ desc.kind pin,
      alike.limits, fun other => by rw [alike.sound.pinAt_attach named, alike.pin]⟩
  rw [pinMember_eq, creates.leaves_bind]
  refine leaves_bind attached fun _ _ ran => ?_
  obtain rfl := yields_modify.mp ran
  refine leaves_bind (attached.demandParity _ _ _) fun numbered atNumber ran => ?_
  have attached' : g.Attaches r pin atNumber := ran.leaves_eq ▸ attached.demandParity _ _ _
  refine leaves_bind (attached'.demandParity _ _ _) fun aligned atParity ran => ?_
  have attached'' : g.Attaches r pin atParity := ran.leaves_eq ▸ attached'.demandParity _ _ _
  refine leaves_unless_contradict attached'' ?_
  cases prev with
  | none => exact attached''
  | some first =>
    have linked := attached''.link first r (!desc.advisory) false
    refine leaves_bind linked fun made _ ran => ?_
    obtain ⟨rfl, rfl⟩ := apply_yields.mp ran
    exact leaves_unless_contradict linked linked

/-- Pinning a register that was not pinned gives it its pin and no other register one. -/
theorem Pinned.pinMember (pinned : g.Pinned) (fit : g.NumbersFit) (unpinned : g.pinAt r = none)
    (pre : ∀ first ∈ prev, g.pinAt first ≠ none)
    (ran : (Seeding.pinMember desc r pin prev).Yields g () after) :
    r.isVirtual = true ∧ after.Pinned ∧ after.NumbersFit ∧ after.limits = g.limits ∧
      ∀ one, after.pinAt one = if one = r then some pin else g.pinAt one := by
  obtain ⟨id, equipped, atNumber, atParity, creates, demands, demands', unlinked, links⟩ :=
    pinMember_yields ran
  have alike := pinned.sound.alike_create creates
  obtain ⟨named, attached, named'⟩ := pinned.attached unpinned creates desc.kind pin
  have pins : ∀ one, (equipped.update id (Seeding.attach desc.kind pin)).pinAt one =
      if one = r then some pin else g.pinAt one := by
    intro one
    rw [alike.sound.pinAt_attach named, alike.pin]
  have parities : ∀ one, (equipped.update id (Seeding.attach desc.kind pin)).parityOf one =
        g.parityOf one := fun one =>
    ((labels_attach desc.kind pin).parityOf alike.sound.pool one).trans (alike.parity one)
  obtain ⟨pinned', refines, named'', parity⟩ := attached.demand named' demands
  obtain ⟨pinned'', refines', _, _⟩ := pinned'.demand named'' demands'
  have refines'' := refines.trans refines'
  have here : atParity.pinAt r ≠ none := by
    rw [refines''.pin, pins, if_pos rfl]
    exact Option.some_ne_none pin
  have previous : ∀ first ∈ prev, atParity.pinAt first ≠ none := by
    intro first isPrev
    rw [refines''.pin, pins]
    split
    · exact Option.some_ne_none pin
    · exact pre first isPrev
  obtain ⟨linked, grown⟩ :=
    pinned''.linkMember here previous unlinked fun first isPrev => (links first isPrev).2
  have whole := refines''.trans grown
  refine ⟨(create_yields.mp creates).1, linked, ?_, whole.limits.trans alike.limits,
    fun one => (whole.pin one).trans (pins one)⟩
  intro one found number isPin physical
  rw [whole.pin, pins] at isPin
  have known : atNumber.parityOf one = .ofNumber number := by
    by_cases same : one = r
    · rw [if_pos same] at isPin
      cases isPin
      rw [physical] at parity
      rw [same]
      exact parity (ofNumber_ne_any number)
    · rw [if_neg same] at isPin
      have old := (parities one).trans (fit one found number isPin physical)
      rw [refines.parity one (by rw [old]; exact ofNumber_ne_any number), old]
  rw [(refines'.trans grown).parity one (by rw [known]; exact ofNumber_ne_any number), known]

end ChainGraph

end RegisterChains

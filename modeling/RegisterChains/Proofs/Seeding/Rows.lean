/-
This file is about the members of descriptors that are in place, as rows, one for each
descriptor. Each member is pinned where its descriptor says and nothing else is pinned; each row
is a chain of its own, with links that are optional if the descriptor is advisory; and a row
without hardware numbers has the parities that its descriptor asks for. A register that is
pinned makes its row longer by one and leaves all other rows alone.
-/

import RegisterChains.Proofs.Seeding.Seeded

namespace RegisterChains

open List

namespace ChainGraph

variable {g after : ChainGraph} {r : Register} {pin : Pin}

/-! ### Pinning a register that is alone -/

theorem demandAny_yields {id : NodeId} {must granted : Bool}
    (ran : (demandParity id .any must).Yields g granted after) : after = g := by
  rcases demandParity_yields.mp ran with ⟨_, _, same⟩ | ⟨demanded, _⟩
  · exact same
  · exact absurd rfl demanded

/-- What a register that is alone is like once it has its pin and its parities: no link and no
other parity has changed. -/
structure Prepares (g after : ChainGraph) (reg : Register) (pin : Pin)
    (parity : Parity) : Prop where
  pinned : after.Pinned
  follows : ∀ mustOnly low high, after.Follows mustOnly low high ↔ g.Follows mustOnly low high
  pins : ∀ other, after.pinAt other = if other = reg then some pin else g.pinAt other
  others : ∀ other, other ≠ reg → after.parityOf other = g.parityOf other
  here : pin.physical = none → after.parityOf reg = parity

theorem Pinned.isRun_alone (pinned : g.Pinned) (unpinned : g.pinAt r = none) :
    IsRun (g.Follows false) [r] := by
  obtain ⟨pre, post, run⟩ := pinned.sound.exists_registerRun false r
  have alone := pinned.alone unpinned run (by simp)
  rw [alone] at run
  exact run

theorem Pinned.prepares {desc : Descriptor} {id : NodeId}
    {equipped numbered aligned : ChainGraph} (pinned : g.Pinned)
    (unpinned : g.pinAt r = none) (loose : g.parityOf r = .any)
    (creates : (create r).Yields g id equipped)
    (demands : (demandParity id (pin.physical.elim .any .ofNumber) false).Yields
      (equipped.update id (Seeding.attach desc.kind pin)) true numbered)
    (demands' : (demandParity id (if pin.offset = 0 then desc.parity else .any) true).Yields
      numbered true aligned) :
    g.Prepares aligned r pin (if pin.offset = 0 then desc.parity else .any) := by
  have alike := pinned.sound.alike_create creates
  obtain ⟨named, attached, named'⟩ := pinned.attached unpinned creates desc.kind pin
  have labels := labels_attach desc.kind pin
  have follows : ∀ must lo hi, (equipped.update id
      (Seeding.attach desc.kind pin)).Follows must lo hi ↔
        g.Follows must lo hi := fun must lo hi =>
    (labels.follows_iff alike.sound id must lo hi).trans (alike.follows must lo hi)
  have parities : ∀ one, (equipped.update id (Seeding.attach desc.kind pin)).parityOf one =
        g.parityOf one := fun one =>
    (labels.parityOf alike.sound.pool one).trans (alike.parity one)
  have alone := pinned.isRun_alone unpinned
  have alone' := alone.congr (fun _ _ _ => follows false _ _) fun _ _ _ => follows false _ _
  obtain ⟨settles, _⟩ := attached.sound.demandParity_granted named' demands
  obtain ⟨pinned', refines, named'', _⟩ := attached.demand named' demands
  have same : ∀ must lo hi, numbered.Follows must lo hi ↔
      g.Follows must lo hi := fun must lo hi =>
    (settles.follows_iff attached.sound).trans (follows must lo hi)
  have alone'' := alone.congr (fun _ _ _ => same false _ _) fun _ _ _ => same false _ _
  obtain ⟨settles', granted⟩ := pinned'.sound.demandParity_granted named'' demands'
  obtain ⟨pinned'', refines', _, _⟩ := pinned'.demand named'' demands'
  refine ⟨pinned'', fun must lo hi =>
    (settles'.follows_iff pinned'.sound).trans (same must lo hi), fun one => ?_,
    fun one apart => ?_, fun unnumbered => ?_⟩
  · rw [(refines.trans refines').pin, alike.sound.pinAt_attach named, alike.pin]
  · have outside : one ∉ [] ++ r :: [] :=
      fun mem => apart (mem_singleton.mp mem)
    rw [pinned'.sound.demandParity_apart named'' alone'' demands' outside,
      attached.sound.demandParity_apart named' alone' demands outside, parities]
  · -- Without a number, the register has no parity when that of the descriptor is demanded.
    by_cases demanded : (if pin.offset = 0 then desc.parity else .any) = Parity.any
    · rw [unnumbered] at demands
      rw [demanded] at demands' ⊢
      rw [demandAny_yields demands', demandAny_yields demands, parities, loose]
    · exact granted demanded

end ChainGraph

namespace Seeding

open ChainGraph

variable {declared : BindingId → Option Descriptor} {rows : BindingId → List Register}
  {g after : ChainGraph} {next : Pass} {bnd bnd' : BindingId} {desc descriptor' : Descriptor}
  {offset offset' : Nat} {r other lo hi : Register} {pin : Pin}

/-! ### Rows -/

/-- A member of a descriptor is in place. -/
def Seats (declared : BindingId → Option Descriptor) (rows : BindingId → List Register)
    (bnd : BindingId) (desc : Descriptor) (offset : Nat) (r : Register) : Prop :=
  declared bnd = some desc ∧ (rows bnd)[offset]? = some r

/-- The constraints are those of the members that are in place, and no others. -/
structure Laid (declared : BindingId → Option Descriptor) (rows : BindingId → List Register)
    (g : ChainGraph) : Prop where
  pinned : ∀ binding desc offset reg, Seats declared rows binding desc offset reg →
    reg.isVirtual = true ∧ ∃ pin, Wants binding desc offset pin ∧ g.pinAt reg = some pin
  owned : ∀ reg pin, g.pinAt reg = some pin →
    ∃ desc offset, Seats declared rows pin.binding desc offset reg
  linked : ∀ mustOnly low high, g.Follows mustOnly low high ↔
    ∃ binding desc offset, Seats declared rows binding desc offset low ∧
      Seats declared rows binding desc (offset + 1) high ∧
      (mustOnly = true → desc.advisory = false)
  parity : ∀ binding desc offset reg,
    Seats declared rows binding desc offset reg → desc.physical = none →
    g.parityOf reg = desc.parity.atOffset offset
  loose : ∀ reg, g.pinAt reg = none → g.parityOf reg = .any

theorem laid_empty (declared : BindingId → Option Descriptor) (limits : BankLimits) :
    Laid declared (fun _ => []) (.empty limits) where
  pinned bnd desc offset r seat := by cases seat.2
  owned r pin isPin := by cases isPin
  linked must lo hi := by
    refine iff_of_false (fun follows => Shaped.not_follows_empty follows.weaken) ?_
    rintro ⟨bnd, desc, offset, seat, _⟩
    cases seat.2
  parity bnd desc offset r seat := by cases seat.2
  loose _ _ := rfl

section

variable (laid : Laid declared rows g)

include laid

theorem Laid.alike (alike : g.Alike after) : Laid declared rows after where
  pinned bnd desc offset r seat := by
    rw [alike.pin]
    exact laid.pinned bnd desc offset r seat
  owned r pin isPin := laid.owned r pin ((alike.pin r).symm.trans isPin)
  linked must lo hi :=
    (alike.follows must lo hi).trans (laid.linked must lo hi)
  parity bnd desc offset r seat unnumbered :=
    (alike.parity r).trans (laid.parity bnd desc offset r seat unnumbered)
  loose r unpinned :=
    (alike.parity r).trans (laid.loose r ((alike.pin r).symm.trans unpinned))

/-- The descriptor that a register is pinned by. -/
def ownerOf (g : ChainGraph) (r : Register) : Option BindingId :=
  (g.pinAt r).map (·.binding)

theorem Laid.owner (seat : Seats declared rows bnd desc offset r) : ownerOf g r = some bnd := by
  obtain ⟨_, pin, ⟨physical, _, rfl⟩, isPin⟩ := laid.pinned _ _ _ _ seat
  rw [ownerOf, isPin]
  rfl

/-- Chains do not mix the members of descriptors. -/
theorem Laid.owner_follows (follows : g.Follows false lo hi) : ownerOf g lo = ownerOf g hi := by
  obtain ⟨bnd, desc, offset, seat, seat', _⟩ := (laid.linked false lo hi).mp follows
  rw [laid.owner seat, laid.owner seat']

/-- The chain of a member whose descriptor is not advisory has mandatory links only. -/
theorem Laid.firm (seat : Seats declared rows bnd desc offset r) (strict : desc.advisory = false) :
    g.Firm r := by
  intro ms run mem lo isMem hi follows
  have owner := eq_of_isChain run.linked (fun _ _ => laid.owner_follows) isMem mem
  obtain ⟨bnd', descriptor', offset', seat', seat'', _⟩ :=
    (laid.linked false lo hi).mp follows
  rw [laid.owner seat', laid.owner seat, Option.some_inj] at owner
  subst owner
  cases seat'.1.symm.trans seat.1
  exact (laid.linked true lo hi).mpr ⟨_, _, _, seat', seat'', fun _ => strict⟩

end

/-! ### One more member -/

theorem seats_push (isDeclared : declared bnd = some desc) (r other : Register) (bnd' : BindingId)
    (descriptor' : Descriptor) (offset : Nat) :
    Seats declared (Function.update rows bnd (rows bnd ++ [r])) bnd' descriptor'
      offset other ↔ Seats declared rows bnd' descriptor' offset other ∨
        (bnd' = bnd ∧ descriptor' = desc ∧ offset = (rows bnd).length ∧ other = r) := by
  unfold Seats
  by_cases same : bnd' = bnd
  · subst same
    rw [Function.update_self, isDeclared]
    by_cases lt : offset < (rows bnd').length
    · rw [getElem?_append_left lt]
      have short : offset ≠ (rows bnd').length := by omega
      simp [short]
    · have outside : (rows bnd')[offset]? = none := getElem?_eq_none (by omega)
      rw [getElem?_append_right (by omega), outside]
      by_cases here : offset = (rows bnd').length
      · subst here
        simp [eq_comm]
      · have beyond : ([r] : List Register)[offset - (rows bnd').length]? = none :=
          getElem?_eq_none (by simp; omega)
        simp [beyond, here]
  · simp [same]

/-- A descriptor without a number wants none for its members. -/
theorem Wants.unnumbered (wants : Wants bnd desc offset pin) (none : desc.physical = none) :
    pin.physical = .none := by
  obtain ⟨physical, isPhysical, rfl⟩ := wants
  rw [Descriptor.physicalAt, none] at isPhysical
  cases isPhysical
  rfl

/-- A member that has been pinned and linked behind the last member of its row. -/
structure Appends (g after : ChainGraph) (desc : Descriptor) (row : List Register)
    (reg : Register) (pin : Pin) : Prop where
  sound : after.Sound
  virtual : reg.isVirtual = true
  pins : ∀ other, after.pinAt other = if other = reg then some pin else g.pinAt other
  follows : ∀ mustOnly low high, after.Follows mustOnly low high ↔
    g.Follows mustOnly low high ∨ (row.getLast? = some low ∧ high = reg ∧
      (mustOnly = true → desc.advisory = false))
  others : ∀ other, other ≠ reg → ownerOf g other ≠ some pin.binding ∨ desc.physical = none →
    after.parityOf other = g.parityOf other
  alone : row = [] → desc.physical = none → after.parityOf reg = desc.parity

/-- The last member of a row. -/
theorem seats_last (isDeclared : declared bnd = some desc) {last : Register}
    (isLast : (rows bnd).getLast? = some last) : ∃ offset, offset + 1 = (rows bnd).length ∧
      Seats declared rows bnd desc offset last := by
  rw [getLast?_eq_getElem?] at isLast
  have lt := lt_of_getElem? isLast
  exact ⟨(rows bnd).length - 1, by omega, isDeclared, isLast⟩

/-- A member behind the last one of its row has one neighbour, and the others keep theirs. -/
theorem adjacent_push (isDeclared : declared bnd = some desc) {must : Bool} :
    (∃ bnd' descriptor' offset,
      Seats declared (Function.update rows bnd (rows bnd ++ [r])) bnd' descriptor' offset lo ∧
      Seats declared (Function.update rows bnd (rows bnd ++ [r])) bnd'
        descriptor' (offset + 1) hi ∧ (must = true → descriptor'.advisory = false)) ↔
    (∃ bnd' descriptor' offset, Seats declared rows bnd' descriptor' offset lo ∧
      Seats declared rows bnd' descriptor' (offset + 1) hi ∧
      (must = true → descriptor'.advisory = false)) ∨
    ((rows bnd).getLast? = some lo ∧ hi = r ∧ (must = true → desc.advisory = false)) := by
  have seats := @seats_push declared rows bnd desc isDeclared r
  constructor
  · rintro ⟨bnd', descriptor', offset, seat, seat', strict⟩
    have old : Seats declared rows bnd' descriptor' offset lo := by
      refine ((seats _ _ _ _).mp seat).resolve_right ?_
      rintro ⟨rfl, rfl, isEnd, rfl⟩
      rcases (seats _ _ _ _).mp seat' with ⟨_, placed⟩ | ⟨_, _, isEnd', _⟩
      · have lt := lt_of_getElem? placed
        omega
      · omega
    rcases (seats _ _ _ _).mp seat' with old' | ⟨rfl, rfl, isEnd, rfl⟩
    · exact .inl ⟨bnd', descriptor', offset, old, old', strict⟩
    · refine .inr ⟨?_, rfl, strict⟩
      rw [getLast?_eq_getElem?, ← isEnd]
      exact old.2
  · rintro (⟨bnd', descriptor', offset, seat, seat', strict⟩ | ⟨isLast, rfl, strict⟩)
    · exact ⟨bnd', descriptor', offset, (seats _ _ _ _).mpr (.inl seat),
        (seats _ _ _ _).mpr (.inl seat'), strict⟩
    · obtain ⟨offset, isEnd, seat⟩ := seats_last isDeclared isLast
      exact ⟨bnd, desc, offset, (seats _ _ _ _).mpr (.inl seat),
        (seats _ _ _ _).mpr (.inr ⟨rfl, rfl, isEnd, rfl⟩), strict⟩

section Appending

variable {pin : Pin} {prepared : ChainGraph} {first : Register} {must : Bool}

/-- Along the links that there are after a member was linked, the pins are those of one
descriptor. -/
theorem Laid.owner_linked {parity : Parity} (laid : Laid declared rows g) (pinned : g.Pinned)
    (unpinned : g.pinAt r = none) (prepares : g.Prepares prepared r pin parity)
    (seat : Seats declared rows pin.binding desc offset first)
    (ties : prepared.Ties after first r must) (follows : after.Follows false lo hi) :
    ownerOf prepared lo = ownerOf prepared hi := by
  have kept : ∀ one, g.pinAt one ≠ none → ownerOf prepared one = ownerOf g one := by
    intro one isPinned
    rw [ownerOf, prepares.pins, if_neg, ownerOf]
    rintro rfl
    exact isPinned unpinned
  rcases ties.follows lo hi follows with old | ⟨rfl, rfl⟩
  · have old := (prepares.follows false lo hi).mp old
    obtain ⟨lowPinned, highPinned⟩ := pinned.linked lo hi old
    rw [kept lo lowPinned, kept hi highPinned, laid.owner_follows old]
  · have owner := laid.owner seat
    have firstPinned : g.pinAt lo ≠ none := by
      intro missing
      rw [ownerOf, missing] at owner
      cases owner
    rw [kept lo firstPinned, owner, ownerOf, prepares.pins, if_pos rfl]
    rfl

/-- A link behind a member changes the parities of its own row at most, and those only if they
come from numbers. -/
theorem Laid.parity_linked (laid : Laid declared rows g) (pinned : g.Pinned)
    (unpinned : g.pinAt r = none)
    (prepares : g.Prepares prepared r pin (if pin.offset = 0 then desc.parity else .any))
    (wants : Wants bnd desc (rows bnd).length pin)
    (seat : Seats declared rows bnd desc offset first) (ties : prepared.Ties after first r must)
    (apart : other ≠ r) (quiet : ownerOf g other ≠ some pin.binding ∨ desc.physical = none) :
    after.parityOf other = g.parityOf other := by
  rw [← prepares.others other apart]
  by_contra ch
  obtain ⟨⟨ms, run, mem, mem'⟩, fixed⟩ := ties.parity other ch
  have isBinding := wants.binding_eq
  subst isBinding
  have same := eq_of_isChain run.linked (fun _ _ follows =>
    laid.owner_linked pinned unpinned prepares seat ties follows.weaken) mem mem'
  have firstApart : first ≠ r := by
    rintro rfl
    have owner := laid.owner seat
    rw [ownerOf, unpinned] at owner
    cases owner
  have owner : ownerOf g other = some pin.binding := by
    rw [ownerOf, ownerOf, prepares.pins, prepares.pins, if_neg apart, if_neg firstApart] at same
    exact same.trans (laid.owner seat)
  rcases quiet with foreign | unnumbered
  · exact foreign owner
  -- Without numbers, the row has one parity for all, and a fixed one cannot change.
  obtain ⟨owned, isOwned, isBinding⟩ := Option.map_eq_some_iff.mp owner
  obtain ⟨descriptor', offset', seat'⟩ := laid.owned other owned isOwned
  rw [isBinding] at seat'
  cases seat'.1.symm.trans seat.1
  have here := laid.parity _ _ _ _ seat' unnumbered
  by_cases free : desc.parity = .any
  · have firstFree := laid.parity _ _ _ _ seat unnumbered
    have registerFree := prepares.here (wants.unnumbered unnumbered)
    rw [prepares.others first firstApart, firstFree, registerFree, free] at fixed
    simp at fixed
  · refine ch (ties.grows.parityOf prepares.pinned.sound.toShaped ties.sound.toShaped ?_)
    rw [prepares.others other apart, here]
    exact Parity.atOffset_eq_any.not.mpr free

end Appending

/-- Pinning a register that no descriptor pins appends it to the row of its descriptor. -/
theorem Laid.appends (laid : Laid declared rows g) (pinned : g.Pinned)
    (isDeclared : declared bnd = some desc) (unpinned : g.pinAt r = none)
    (wants : Wants bnd desc (rows bnd).length pin)
    (ran : (pinMember desc r pin (rows bnd).getLast?).Yields g () after) :
    Appends g after desc (rows bnd) r pin := by
  obtain ⟨id, equipped, numbered, prepared, creates, demands, demands', unlinked, linked⟩ :=
    pinMember_yields ran
  have prepares := pinned.prepares unpinned (laid.loose r unpinned) creates demands demands'
  have virt := (create_yields.mp creates).1
  cases isLast : (rows bnd).getLast? with
  | none =>
    obtain rfl := unlinked isLast
    have bare := getLast?_eq_none_iff.mp isLast
    refine ⟨prepares.pinned.sound, virt, prepares.pins, fun must lo hi => ?_,
      fun one apart _ => prepares.others one apart, fun _ unnumbered => ?_⟩
    · rw [prepares.follows, bare]
      simp
    · rw [prepares.here (wants.unnumbered unnumbered), if_pos]
      obtain ⟨_, _, rfl⟩ := wants
      rw [bare]
      rfl
  | some first =>
    obtain ⟨made, rfl⟩ := linked first isLast
    obtain ⟨offset, _, seat⟩ := seats_last isDeclared isLast
    have sound := prepares.pinned.sound
    have ties := (sound.link first r _ false).1 made
    have same : prepared.Follows = g.Follows := by
      funext must lo hi
      exact propext (prepares.follows must lo hi)
    have unlinked : ∀ lo hi, g.Follows false lo hi → lo ≠ r ∧ hi ≠ r := by
      intro lo hi follows
      obtain ⟨lowPinned, highPinned⟩ := pinned.linked lo hi follows
      exact ⟨fun same => lowPinned (same ▸ unpinned), fun same => highPinned (same ▸ unpinned)⟩
    have firmFirst : (!desc.advisory) = true → prepared.Firm first := by
      intro strict
      unfold Firm
      rw [same]
      exact laid.firm seat (by simpa using strict)
    have firmRegister : (!desc.advisory) = true → prepared.Firm r := by
      intro _
      unfold Firm
      rw [same]
      intro ms run mem lo isMem hi follows
      rw [pinned.alone unpinned run mem, mem_singleton] at isMem
      exact absurd isMem (unlinked lo hi follows).1
    have apart : ¬ prepared.Follows false first r := by
      rw [same]
      exact fun follows => (unlinked first r follows).2 rfl
    refine ⟨ties.sound, virt, fun one => ?_, fun must lo hi => ?_,
      fun one away quiet => ?_, fun bare => ?_⟩
    · rw [ties.grows.pinAt sound.toShaped ties.sound.toShaped, prepares.pins]
    · rw [sound.link_follows_iff firmFirst firmRegister made apart, same, isLast,
        Option.some_inj, Bool.not_eq_true']
      exact or_congr_right (and_congr_left' eq_comm)
    · exact laid.parity_linked pinned unpinned prepares wants seat ties away quiet
    · rw [bare] at isLast
      cases isLast

/-- Pinning a register that no descriptor pins makes the row of its descriptor longer. -/
theorem Laid.push (laid : Laid declared rows g) (isDeclared : declared bnd = some desc)
    (unpinned : g.pinAt r = none) (wants : Wants bnd desc (rows bnd).length pin)
    (appends : Appends g after desc (rows bnd) r pin) :
    Laid declared (Function.update rows bnd (rows bnd ++ [r])) after := by
  have seats := @seats_push declared rows bnd desc isDeclared r
  have apart : ∀ {bnd' descriptor' offset one},
      Seats declared rows bnd' descriptor' offset one → one ≠ r := by
    rintro bnd' descriptor' offset one seat rfl
    obtain ⟨_, _, _, isPin⟩ := laid.pinned _ _ _ _ seat
    rw [unpinned] at isPin
    cases isPin
  refine ⟨?_, ?_, ?_, ?_, ?_⟩
  · intro bnd' descriptor' offset one seat
    rcases (seats one bnd' descriptor' offset).mp seat with old | ⟨rfl, rfl, rfl, rfl⟩
    · rw [appends.pins, if_neg (apart old)]
      exact laid.pinned _ _ _ _ old
    · rw [appends.pins, if_pos rfl]
      exact ⟨appends.virtual, pin, wants, rfl⟩
  · intro one found isPin
    rw [appends.pins] at isPin
    split at isPin
    · next same =>
      cases isPin
      refine ⟨desc, (rows bnd).length, (seats one _ _ _).mpr (.inr ?_)⟩
      exact ⟨wants.binding_eq, rfl, rfl, same⟩
    · obtain ⟨descriptor', offset, seat⟩ := laid.owned one found isPin
      exact ⟨descriptor', offset, (seats one _ _ _).mpr (.inl seat)⟩
  · intro must lo hi
    rw [appends.follows, laid.linked]
    exact (adjacent_push isDeclared).symm
  · intro bnd' descriptor' offset one seat unnumbered
    rcases (seats one bnd' descriptor' offset).mp seat with old | ⟨rfl, rfl, rfl, rfl⟩
    · rw [appends.others one (apart old), laid.parity _ _ _ _ old unnumbered]
      rw [laid.owner old, wants.binding_eq]
      by_cases same : bnd' = bnd
      · subst same
        cases old.1.symm.trans isDeclared
        exact .inr unnumbered
      · exact .inl fun equal => same (Option.some_inj.mp equal)
    · cases isLast : (rows bnd').getLast? with
      | none =>
        have bare := getLast?_eq_none_iff.mp isLast
        rw [appends.alone bare unnumbered, bare]
        rfl
      | some last =>
        obtain ⟨offset, isEnd, seat'⟩ := seats_last isDeclared isLast
        have follows := (appends.follows false last one).mpr (.inr ⟨isLast, rfl, nofun⟩)
        rw [appends.sound.parity_follows follows,
          appends.others last (apart seat') (.inr unnumbered),
          laid.parity _ _ _ _ seat' unnumbered, ← isEnd, Parity.atOffset_succ]
  · intro one none
    rw [appends.pins] at none
    split at none
    · cases none
    · next away =>
      rw [appends.others one away, laid.loose one none]
      left
      rw [ownerOf, none]
      exact nofun

end Seeding

end RegisterChains

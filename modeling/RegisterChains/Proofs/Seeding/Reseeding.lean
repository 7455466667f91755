/-
This file shows that a descriptor is seeded once and for all. Its members keep their pins
whatever is asked of the constraints afterwards, as long as no register is released, and
whether other descriptors are seeded or refused half way. A member with the pin that its
descriptor wants is passed over, so to seed the descriptor again changes nothing. This rests
on fresh registers being fresh: a register that is handed out twice loses its first pin.
-/

import RegisterChains.Proofs.Chain.Reached
import RegisterChains.Proofs.Repair.Failing
import RegisterChains.Proofs.Seeding.Placement

namespace RegisterChains

open Pass Program

namespace Seeding

open ChainGraph Step

variable {pass mid next : Pass} {binding : BindingId} {r : Register} {desc : Descriptor}
  {prev : Option Register} {reason : Tracking → ResolutionError → Prop} {track : Tracking}
  {prog : Program} {ms : List Register} {count : Nat}

/-! ### Descriptors that are refused -/

/-- What seeding some members of a descriptor keeps, even if it is refused half way. -/
structure Keeps (binding : BindingId) (pass next : Pass) : Prop where
  standing : Standing next
  pins : ∀ reg pin, pass.graph.pinAt reg = some pin → next.graph.pinAt reg = some pin
  others : ∀ other, other ≠ binding →
    next.program.descriptors.get? other = pass.program.descriptors.get? other

theorem Standing.keeps (standing : Standing pass) (binding : BindingId) : Keeps binding pass pass :=
  ⟨standing, fun _ _ isPin => isPin, fun _ _ => rfl⟩

theorem Advances.keeps (advances : Advances binding pass next) (standing : Standing next) :
    Keeps binding pass next :=
  ⟨standing, advances.pins, advances.others⟩

theorem Keeps.trans (first : Keeps binding pass mid) (second : Keeps binding mid next) :
    Keeps binding pass next where
  standing := second.standing
  pins r pin isPin := second.pins r pin (first.pins r pin isPin)
  others one apart := (second.others one apart).trans (first.others one apart)

theorem Keeps.stops {α : Type} {step : Step Pass α} (keeps : Keeps binding pass mid)
    (stops : step.FailsFor (onError fun left _ => Keeps binding mid left) mid) :
    step.FailsFor (onError fun left _ => Keeps binding pass left) mid := by
  intro failure failed
  cases failure with
  | error error => exact keeps.trans (stops _ failed)
  | breach cause => trivial

theorem stops_follow {id : InstructionId} {inst : Instruction} {place : UInt32} :
    (follow id inst place).FailsFor (onError reason) track := by
  unfold follow
  rw [fails_modify_bind, fails_modify_bind]
  split
  · exact fails_bind Tracking.stops_recordCopy fun _ _ _ => fails_pure
  · exact fails_pure

theorem stops_followAll {places : List (InstructionId × Nat)} :
    (followAll prog places).FailsFor (onError reason) track := by
  induction places generalizing track with
  | nil => exact fails_pure
  | cons place rest ih =>
    refine fails_lift_bind (fun _ _ => trivial) fun inst _ => ?_
    exact fails_bind stops_follow fun _ _ _ => ih

/-- The search for a copy is never refused. -/
theorem stops_spareCopy {blk : BlockId} {v : Register} :
    (spareCopy prog blk v).FailsFor (onError reason) track := by
  refine fails_lift_bind (fun _ _ => trivial) fun keys _ => ?_
  refine fails_bind stops_followAll fun _ _ _ => ?_
  rw [fails_get_bind]
  refine fails_lift_bind (fun _ _ => trivial) fun holders _ => ?_
  exact fails_bind (fails_findM fun _ _ _ _ => trivial) fun _ _ _ =>
    fails_bind Tracking.stops_finish fun _ _ _ => fails_pure

section

variable (standing : Standing pass) (noted : pass.program.Noted r)

include standing noted

theorem Standing.allocate {number stop : UInt32}
    (allocates : (allocate 1).Yields pass.program (number, stop) prog) :
    Keeps binding pass { pass with program := prog } := by
  have separates : Separates pass.program r .input (.temp number) prog := .input allocates
  obtain ⟨_, grown, descs⟩ := separates.noted standing.closed
  exact ⟨⟨standing.sound, standing.unmarked, separates.closed standing.closed noted,
    fun one pinned => (standing.noted one pinned).mono grown, standing.virtual⟩,
    fun _ _ isPin => isPin, fun other _ => congrArg (·.get? other) descs⟩

theorem Standing.stops_separateFresh {ownerKind : DescriptorKind} :
    (separateFresh desc r ownerKind).FailsFor
      (onError (fun left _ => Keeps binding pass left)) pass := by
  refine fails_bind (fails_within.mpr
    (fails_allocate fun _ => standing.keeps binding)) fun ⟨number, stop⟩ _ ran => ?_
  obtain ⟨allocated, allocates, rfl⟩ := onProgram_yields.mp ran
  -- From here on a register has been handed out, and whatever is refused leaves it at that.
  have kept : Keeps binding pass { pass with program := allocated } :=
    standing.allocate noted allocates
  simp only
  split
  · rw [fails_get_bind]
    split
    · refine fails_bind (fails_bind ?_ fun _ _ _ => fails_modify)
        fun _ _ _ => fails_report_bind.mpr fails_pure
      exact fails_within.mpr (stops_create_place fun _ => kept)
    · exact fails_bind (fails_stop kept) fun _ _ no => absurd no not_yields_contradict
  · refine fails_bind ?_ fun _ _ _ => fails_report_bind.mpr fails_pure
    unfold separateArray
    rw [fails_get_bind]
    split
    · refine fails_bind (fails_within.mpr (stops_create_place fun _ => kept)) fun _ _ _ => ?_
      refine fails_bind (fails_within.mpr ?_) fun _ _ _ => fails_modify
      unfold renameAfter
      rw [fails_get_bind]
      exact fails_lift_bind (fun _ _ => trivial) fun _ _ => fails_modify
    · exact fails_stop kept
  · exact fails_report_bind.mpr fails_pure

theorem Standing.stops_separate {owner : Pin} :
    (Seeding.separate desc r owner).FailsFor
      (onError (fun left _ => Keeps binding pass left)) pass := by
  unfold Seeding.separate
  rw [fails_get_bind]
  refine fails_lift_bind (fun _ _ => trivial) fun owning _ => ?_
  refine fails_unless_contradict (standing.keeps binding) fun _ => ?_
  change (if desc.kind = .output then _ else
    separateFresh desc r owning.kind).FailsFor (onError _) pass
  split
  · rw [fails_get_bind]
    simp only
    split
    · next exit isExit =>
      refine fails_bind (fails_withCache.mpr stops_spareCopy) fun spare _ searches => ?_
      obtain ⟨track, searched, rfl⟩ := withCache_yields.mp searches
      obtain ⟨alike, unmarked, _⟩ := spareCopy_yields
        (Tracking.sound_empty standing.sound standing.unmarked exit) searched
      cases spare with
      | some holder => exact fails_report_bind.mpr fails_pure
      | none =>
        have standing' : Standing { pass with graph := track.graph } :=
          ⟨alike.sound, unmarked, standing.closed, fun one => alike.pin one ▸ standing.noted one,
            fun one => alike.pin one ▸ standing.virtual one⟩
        have kept : Keeps binding pass { pass with graph := track.graph } :=
          ⟨standing', fun one pin isPin => (alike.pin one).trans isPin, fun _ _ => rfl⟩
        exact kept.stops (standing'.stops_separateFresh noted)
    · exact fails_bind (fails_stop (standing.keeps binding)) fun _ _ no =>
        absurd no not_yields_contradict
  · exact standing.stops_separateFresh noted

theorem Standing.stops_pinMember {pin : Pin} (unpinned : pass.graph.pinAt r = none) :
    (onGraph (Seeding.pinMember desc r pin prev)).FailsFor
      (onError (fun left _ => Keeps binding pass left)) pass := by
  refine fails_within.mpr ?_
  by_cases virt : r.isVirtual = true
  · intro failure _
    have attaches : pass.graph.Attaches r pin
        ((Seeding.pinMember desc r pin prev).leaves pass.graph) :=
      standing.sound.attaches_pinMember standing.unmarked virt
    have keeps : Keeps binding pass _ := ⟨standing.attaches noted virt attaches,
      fun one found => pinAt_of_attaches attaches unpinned, fun _ _ => rfl⟩
    cases failure with
    | error error => exact keeps
    | breach cause => trivial
  · exact fails_bind ChainGraph.stops_create fun _ _ creates =>
      absurd (create_yields.mp creates).1 virt

theorem Standing.stops_seedMember {offset : Nat} :
    (Seeding.seedMember binding desc r offset prev).FailsFor
      (onError (fun left _ => Keeps binding pass left)) pass := by
  unfold Seeding.seedMember
  refine fails_unless_contradict (standing.keeps binding) fun notHardware => ?_
  have virt : r.isVirtual = true := by simpa using notHardware
  refine fails_lift_bind (fun _ _ => trivial) fun physical _ => ?_
  rw [fails_get_bind]
  simp only
  split
  · next owner isPin =>
    split
    · exact fails_pure
    · refine fails_bind (standing.stops_separate noted) fun one separated separates => ?_
      obtain ⟨standing', advances, _, unpinned, fresh, _⟩ :=
        standing.separate binding offset noted virt separates
      refine fails_bind (fails_within.mpr fails_modify) fun _ _ replaces => ?_
      obtain ⟨_, replaced, rfl⟩ := onProgram_yields.mp replaces
      obtain rfl := yields_modify.mp replaced
      exact fails_bind ((advances.keeps standing').stops
        (standing'.stops_pinMember fresh unpinned)) fun _ _ _ => fails_pure
  · next unpinned =>
    exact fails_bind (standing.stops_pinMember noted unpinned) fun _ _ _ =>
      fails_pure

end

theorem Standing.stops_seedMembers {regs : List Register} (standing : Standing pass)
    (found : pass.program.descriptors.get? binding = some { desc with registers := regs })
    (left : regs.drop count = ms) :
    (Seeding.seedMembers binding desc (ms.zipIdx count) prev).FailsFor
      (onError (fun left _ => Keeps binding pass left)) pass := by
  induction ms generalizing pass regs count prev with
  | nil => exact fails_pure
  | cons r rest ih =>
    have placed := getElem?_of_drop left
    have noted : pass.program.Noted r :=
      standing.closed.members binding _ found r (List.mem_of_getElem? placed)
    rw [List.zipIdx_cons]
    refine fails_bind (standing.stops_seedMember noted) fun one mid seeds => ?_
    obtain ⟨standing', advances, found', _⟩ := standing.seedMember found placed seeds
    exact (advances.keeps standing').stops (ih standing' found' (drop_set_of_drop left))

/-- A descriptor that is refused takes no pin away, and no other descriptor is changed. -/
theorem Standing.stops_seed (standing : Standing pass) :
    (Seeding.seed binding).FailsFor (onError (fun left _ => Keeps binding pass left)) pass := by
  unfold Seeding.seed
  rw [fails_get_bind]
  exact fails_lift_bind (fun _ _ => trivial) fun desc found =>
    standing.stops_seedMembers (Arena.get_eq_ok.mp found) List.drop_zero

/-! ### Requests -/

/-- Whatever is asked of a graph, it gets no marks, and no register gets a pin. -/
theorem upkept_pins (kind : Register → Prop) : Upkept fun g => g.Sound ∧
      (Tracking.Unmarked g ∧ ∀ r, g.pinAt r ≠ none → kind r) := by
  have carried : ∀ {g after : ChainGraph}, g.Carries after →
      (Tracking.Unmarked g ∧ ∀ r, g.pinAt r ≠ none → kind r) →
      Tracking.Unmarked after ∧ ∀ r, after.pinAt r ≠ none → kind r := by
    intro g after carries kept
    refine ⟨fun node n id isNode payload => ?_, fun r pinned =>
      kept.2 r (carries.pins r ▸ pinned)⟩
    obtain ⟨old, isOld, same⟩ := carries.before isNode (by rw [payload]; simp)
    exact kept.1 node old id isOld (same.trans payload)
  refine upkept_of_sound (fun r sound kept => ?_)
    (fun lo hi must via sound kept => ?_) (fun id sound kept => ?_)
    (fun id parity must sound kept => ?_) fun {g id alone} sound isAlone isFirst isLast kept => ?_
  · have equipped := sound.equipped_ensure r
    exact carried (equipped.grows.carries sound.toShaped equipped.sound.toShaped) kept
  · exact carried (sound.carries_link lo hi must via) kept
  · exact carried (sound.toShaped.recast_unlink id).carries_cut kept
  · have settles := sound.settles_setParity id parity must
    exact carried (settles.grows.carries sound.toShaped settles.sound.toShaped) kept
  · have loses := sound.toShaped.loses_dropNode id alone.register
    have known := sound.find_of_node? isAlone
    refine ⟨fun node n mark isNode => ?_, fun r pinned => ?_⟩
    · have apart : node ≠ id := by
        rintro rfl
        rw [loses.node, if_pos rfl] at isNode
        cases isNode
      exact kept.1 node n mark (loses.node_of_ne apart ▸ isNode)
    · rcases loses.pinAt sound known r with same | ⟨gone, _⟩
      · exact kept.2 r (same ▸ pinned)
      · exact absurd gone pinned

/-! ### Sessions -/

/-- What can become of a pass when requests are made of its constraints and descriptors are
seeded, in any order. A descriptor may be refused. -/
inductive Session (asked : Request → Prop) (seeded : BindingId → Prop) (start : Pass) :
    Pass → Prop where
  | begins : Session asked seeded start start
  | asks {pass request} : Session asked seeded start pass → asked request →
    Session asked seeded start { pass with graph := request.perform pass.graph }
  | seeds {pass next : Pass} {binding : BindingId} : Session asked seeded start pass →
    seeded binding → (seed binding).Yields pass () next → Session asked seeded start next
  | refuses {pass binding error} : Session asked seeded start pass → seeded binding →
    (seed binding pass).result = .error (.error error) →
    Session asked seeded start ((seed binding).leaves pass)

namespace Session

variable {asked : Request → Prop} {seeded : BindingId → Prop} {start : Pass}

theorem standing (session : Session asked seeded start pass) (standing : Standing start) :
    Standing pass := by
  induction session with
  | begins => exact standing
  | @asks pass request _ _ pre =>
    have kept : pass.graph.Sound ∧ (Tracking.Unmarked pass.graph ∧ ∀ r,
        pass.graph.pinAt r ≠ none → pass.program.Noted r ∧ r.isVirtual = true) :=
      ⟨pre.sound, pre.unmarked, fun r pinned =>
        ⟨pre.noted r pinned, pre.virtual r pinned⟩⟩
    obtain ⟨sound, unmarked, pins⟩ := (upkept_pins _).perform kept request
    exact ⟨sound, unmarked, pre.closed, fun r pinned => (pins r pinned).1,
      fun r pinned => (pins r pinned).2⟩
  | seeds _ _ ran pre => exact (pre.seed ran).1
  | refuses _ _ stopped pre => exact (pre.stops_seed _ stopped : Keeps _ _ _).standing

/-- A descriptor that is settled stays so, unless a register is released. -/
theorem settled (session : Session Request.Lasting (· ≠ binding) start pass)
    (standing : Standing start) (settled : Settled start binding) : Settled pass binding := by
  induction session with
  | begins => exact settled
  | asks session lasting pre =>
    have carries := (session.standing standing).sound.carries_perform lasting
    exact pre.mono rfl fun r pin isPin => (carries.pins r).trans isPin
  | seeds session apart ran pre =>
    exact pre.advances ((session.standing standing).seed ran).2.1 (Ne.symm apart)
  | refuses session apart stopped pre =>
    have keeps : Keeps _ _ _ := (session.standing standing).stops_seed _ stopped
    exact pre.mono (keeps.others _ (Ne.symm apart)) keeps.pins

end Session

/-! ### Seeding again -/

theorem Settled.seedMembers (virt : ∀ r, pass.graph.pinAt r ≠ none → r.isVirtual = true)
    (settled : ∀ offset r, ms[offset]? = some r →
      ∃ pin, Wants binding desc (count + offset) pin ∧ pass.graph.pinAt r = some pin) :
    (Seeding.seedMembers binding desc (ms.zipIdx count) prev).Yields pass () pass := by
  induction ms generalizing count prev with
  | nil => exact yields_pure.mpr ⟨rfl, rfl⟩
  | cons r rest ih =>
    have here := settled 0 r rfl
    rw [Nat.add_zero] at here
    obtain ⟨pin, ⟨physical, isPhysical, rfl⟩, isPin⟩ := here
    have isVirtual := virt r (by rw [isPin]; exact Option.some_ne_none _)
    have passed : (seedMember binding desc r count prev).Yields pass r pass := by
      refine yields_unless_contradict.mpr ⟨by simp [isVirtual], ?_⟩
      refine yields_lift_bind.mpr ⟨physical, isPhysical, ?_⟩
      rw [yields_get_bind]
      simp only
      rw [show (pass.graph.find r).bind pass.graph.pinOf = _ from isPin]
      simp only [if_true]
      exact yields_pure.mpr ⟨rfl, rfl⟩
    rw [List.zipIdx_cons]
    refine yields_bind.mpr ⟨r, pass, passed, ih fun offset one isOne => ?_⟩
    obtain ⟨pin, wants, isPin⟩ := settled (offset + 1) one isOne
    exact ⟨pin, by rwa [Nat.add_assoc, Nat.add_comm 1], isPin⟩

/-- A descriptor that is settled is passed over. -/
theorem Settled.seed (settled : Settled pass binding) (standing : Standing pass) :
    (Seeding.seed binding).Yields pass () pass := by
  obtain ⟨desc, found, ms⟩ := settled
  unfold Seeding.seed
  rw [yields_get_bind]
  refine yields_lift_bind.mpr ⟨desc, Arena.get_eq_ok.mpr found, ?_⟩
  refine Settled.seedMembers standing.virtual fun offset r placed => ?_
  rw [Nat.zero_add]
  exact ms offset r placed

/-- Once a descriptor has been seeded, seeding it again changes nothing, whatever happened in
between to the constraints and to other descriptors. -/
theorem Session.seed_again {target : Target} {program : Program} {seeded after : Pass}
    (closed : program.Closed)
    (before : Session (fun _ => True) (fun _ => True) (.start target program) pass)
    (seeds : (seed binding).Yields pass () seeded)
    (session : Session Request.Lasting (· ≠ binding) seeded after) :
    (seed binding).Yields after () after := by
  have standing := before.standing (consistent_start closed).toStanding
  obtain ⟨standing', _, settled⟩ := standing.seed seeds
  exact (session.settled standing' settled).seed (session.standing standing')

/-- An output is seeded that shares a register with an input. A link is put in the way of an
array, so that the array is refused half way, and a link of the output is cut. -/
theorem seed_again_contested : rowsProgram.Closed ∧ ∃ pass seeded after,
      Session (fun _ => True) (fun _ => True) (.start standardSetting.target rowsProgram)
        pass ∧ (seed ⟨1⟩).Yields pass () seeded ∧ Session Request.Lasting (· ≠ ⟨1⟩) seeded after ∧
      (seed ⟨1⟩).Yields after () after := by
  obtain ⟨pass, seeded, after, before, seeds, session⟩ : ∃ pass seeded after,
      Session (fun _ => True) (fun _ => True) (.start standardSetting.target rowsProgram)
        pass ∧
      (seed ⟨1⟩).Yields pass () seeded ∧ Session Request.Lasting (· ≠ ⟨1⟩) seeded after := by
    have linked : Request.Lasting (.link (.temp 9) none (.temp 5) none true false) := trivial
    have cut : Request.Lasting (.cutAfter ⟨3⟩) := trivial
    have apart : (⟨2⟩ : BindingId) ≠ ⟨1⟩ := by decide
    exact ⟨_, _, _, .seeds .begins trivial (⟨rfl, rfl⟩ : (seed ⟨0⟩).Yields _ () _), ⟨rfl, rfl⟩,
      .asks (.refuses (.asks .begins linked) apart rfl) cut⟩
  exact ⟨closed_rowsProgram, pass, seeded, after, before, seeds, session,
    Session.seed_again closed_rowsProgram before seeds session⟩

/-- Where a register is not noted, an output that has been seeded may lose a pin to another
one, and is refused when it is seeded again. -/
theorem refused_again : ∃ pass seeded after,
      Session (fun _ => True) (fun _ => True) (.start standardSetting.target
        (contestedOutputs.leaves (.empty "main"))) pass ∧
      (seed ⟨1⟩).Yields pass () seeded ∧ Session Request.Lasting (· ≠ ⟨1⟩) seeded after ∧
      (seed ⟨1⟩ after).result = .error (.error (.internal (.seedLink (.temp 9) (.temp 7) ⟨1⟩))) :=
  ⟨_, _, _, .seeds .begins trivial (⟨rfl, rfl⟩ : (seed ⟨0⟩).Yields _ () _), ⟨rfl, rfl⟩,
    .seeds .begins (by decide) (⟨rfl, rfl⟩ : (seed ⟨2⟩).Yields _ () _), rfl⟩

end Seeding

end RegisterChains

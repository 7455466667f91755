/-
This file says what seeding descriptors comes to. Every member of a descriptor that was
seeded is pinned where the descriptor says, and no pin is ever taken away. What holds while
descriptors are seeded is kept by each member: only pinned registers are linked, chains fit
their banks, and the registers that are named are in use.
-/

import RegisterChains.Proofs.Program.Code
import RegisterChains.Proofs.Seeding.Separating

namespace RegisterChains

open Arena Pass Program Seeding

namespace Seeding

open ChainGraph List Step

variable {pass next last : Pass} {bnd : BindingId} {r other replacement : Register}
  {desc cur : Descriptor} {prog start : Program} {prev : Option Register}
  {regs members rest : List Register} {code : BlockId → List Line} {offset count : Nat}
  {pin owner : Pin} {holds : BlockId → Instruction → Prop} {inst : Instruction} {target : Target}
  {g : ChainGraph}

/-- What holds of a pass whatever else is asked of its constraints. -/
structure Standing (pass : Pass) : Prop where
  sound : pass.graph.Sound
  unmarked : Tracking.Unmarked pass.graph
  closed : pass.program.Closed
  noted : ∀ reg, pass.graph.pinAt reg ≠ none → pass.program.Noted reg
  virtual : ∀ reg, pass.graph.pinAt reg ≠ none → reg.isVirtual = true

/-- What holds of a pass while descriptors are seeded. -/
structure Consistent (pass : Pass) : Prop extends Standing pass where
  pinned : pass.graph.Pinned
  numbers : pass.graph.NumbersFit

theorem consistent_start (closed : prog.Closed) : Consistent (.start target prog) where
  pinned := pinned_empty target.limits
  numbers := numbersFit_empty target.limits
  sound := sound_empty target.limits
  unmarked := (pinned_empty target.limits).unmarked
  closed := closed
  noted _ pinned := absurd rfl pinned
  virtual _ pinned := absurd rfl pinned

/-! ### Changes of the program -/

/-- The changes that seeding makes to a program: contested registers are separated, and the
new registers take their places in the descriptors. -/
inductive Edits (start : Program) : Program → Prop where
  | refl : Edits start start
  | separate {prog after reg other binding offset claimant} : Edits start prog → prog.Noted reg →
    reg.isVirtual = true → Separates prog reg claimant other after →
    Edits start (replaceMember binding offset other after)

theorem Edits.trans {mid : Program} (first : Edits start mid) (second : Edits mid prog) :
    Edits start prog := by
  induction second with
  | refl => exact first
  | separate _ noted virtual separates ih => exact .separate ih noted virtual separates

theorem closed_replaceMember (closed : prog.Closed) (noted : prog.Noted other) (bnd : BindingId)
    (offset : Nat) : (replaceMember bnd offset other prog).Closed where
  operands := closed.operands
  members k desc found r mem := by
    unfold replaceMember at found
    rw [get?_modify] at found
    split at found
    · obtain ⟨orig, isOriginal, rfl⟩ := Option.map_eq_some_iff.mp found
      rcases mem_or_eq_of_mem_set mem with old | rfl
      · exact closed.members k orig isOriginal r old
      · exact noted
    · exact closed.members k desc found r mem

/-- The members of the descriptors are related to those that they had at the start. -/
def Tracks (start prog : Program) (relates : Descriptor → Register → Register → Prop) : Prop :=
  ∀ binding desc cur, start.descriptors.get? binding = some desc →
    prog.descriptors.get? binding = some cur →
    cur.registers.length = desc.registers.length ∧
    ∀ (offset : Nat) reg mem, desc.registers[offset]? = some reg →
      cur.registers[offset]? = some mem → relates desc reg mem

/-- A member is replaced: the others are related as before, or in a new way that follows. -/
theorem Tracks.replaceMember {after : Program}
    {relates relates' : Descriptor → Register → Register → Prop}
    (tracks : Tracks start prog relates) (found : prog.descriptors.get? bnd = some cur)
    (placed : cur.registers[offset]? = some r) (same : after.descriptors = prog.descriptors)
    (others : ∀ one desc cur reg mem, start.descriptors.get? one = some desc →
      prog.descriptors.get? one = some cur → reg ∈ desc.registers → mem ∈ cur.registers →
      relates desc reg mem → relates' desc reg mem)
    (own : ∀ desc reg, start.descriptors.get? bnd = some desc → reg ∈ desc.registers →
      relates desc reg r → relates' desc reg other) :
    Tracks start (replaceMember bnd offset other after) relates' := by
  intro one desc current isDeclared isCurrent
  unfold Seeding.replaceMember at isCurrent
  rw [get?_modify, same] at isCurrent
  split at isCurrent
  · next isOwn =>
    subst isOwn
    rw [found, Option.map_some, Option.some_inj] at isCurrent
    subst isCurrent
    obtain ⟨length, each⟩ := tracks one desc cur isDeclared found
    refine ⟨(length_set ..).trans length, fun place reg mem isWanted isMember => ?_⟩
    have named := mem_of_getElem? isWanted
    by_cases here : place = offset
    · subst here
      rw [getElem?_set_self (lt_of_getElem? placed), Option.some_inj] at isMember
      exact isMember ▸ own desc reg isDeclared named (each place reg r isWanted placed)
    · rw [getElem?_set_ne (Ne.symm here)] at isMember
      exact others one desc cur reg mem isDeclared found named (mem_of_getElem? isMember)
        (each place reg mem isWanted isMember)
  · obtain ⟨length, each⟩ := tracks one desc current isDeclared isCurrent
    exact ⟨length, fun place reg mem isWanted isMember => others one desc current reg mem isDeclared
      isCurrent (mem_of_getElem? isWanted) (mem_of_getElem? isMember)
      (each place reg mem isWanted isMember)⟩

theorem Edits.closed (edits : Edits start prog) (closed : start.Closed) : prog.Closed := by
  induction edits with
  | refl => exact closed
  | @separate _ _ _ _ bnd offset _ _ noted _ separates closed' =>
    exact closed_replaceMember (separates.closed closed' noted) (separates.noted closed').1 bnd
      offset

/-- Descriptors keep their keys. -/
theorem Edits.exists_descriptor (edits : Edits start prog) (closed : start.Closed) :
    ∀ k desc, prog.descriptors.get? k = some desc →
        ∃ orig, start.descriptors.get? k = some orig := by
  induction edits with
  | refl => exact fun k desc found => ⟨desc, found⟩
  | separate edits _ _ separates ih =>
    intro k desc found
    unfold replaceMember at found
    rw [get?_modify, (separates.noted (edits.closed closed)).2.2] at found
    split at found
    · obtain ⟨orig, isOriginal, _⟩ := Option.map_eq_some_iff.mp found
      exact ih k orig isOriginal
    · exact ih k desc found

/-- What holds of copies between virtual registers, and is kept when a register is renamed to
a fresh one. -/
structure Robust (holds : BlockId → Instruction → Prop) : Prop where
  moves : ∀ block dest source, dest.isVirtual = true → source.isVirtual = true →
    holds block (.move dest source)
  renames : ∀ block inst reg replacement, holds block inst →
    replacement.isVirtual = true → replacement ∉ inst.dests ++ inst.sources →
    holds block (inst.rename reg replacement)

theorem rename_rename : (inst.rename r replacement).rename r replacement =
      inst.rename r replacement := by
  have twice : ∀ op : Register, (if (if op = r then replacement else op) = r then replacement
      else if op = r then replacement else op) = if op = r then replacement else op := by
    intro op
    by_cases same : op = r
    · rw [if_pos same, ite_self]
    · rw [if_neg same, if_neg same]
  unfold Instruction.rename
  simp only [map_map, Function.comp_def, twice]

theorem notMem_rename (ne : r ≠ replacement) : r ∉ (inst.rename r replacement).dests ++
      (inst.rename r replacement).sources := by
  unfold Instruction.rename
  simp only [← map_append, mem_map, not_exists, not_and]
  intro op _
  split
  · exact Ne.symm ne
  · next apart => exact apart

/-- Separating a contested register keeps the blocks and their order, and what is robust where
all registers are noted. -/
theorem Separates.shows {after : Program} {order : List BlockId} {claimant : DescriptorKind}
    (separates : Separates prog r claimant other after) (shown : prog.Shows order code) :
    ∃ code', after.Shows order code' ∧ after.preamble = prog.preamble ∧
    after.uniforms = prog.uniforms ∧
      ∀ {holds}, Robust holds → prog.Closed → r.isVirtual = true →
        (∀ blk, ∀ line ∈ code blk, holds blk line.2) →
        ∀ blk, ∀ line ∈ code' blk, holds blk line.2 := by
  cases separates with
  | taken => exact ⟨code, shown, rfl, rfl, fun _ _ _ all => all⟩
  | input allocates =>
    have allocated := shown.allocate allocates
    obtain ⟨_, _, _, _, rfl⟩ := allocate_yields.mp allocates
    exact ⟨code, allocated, rfl, rfl, fun _ _ _ all => all⟩
  | output _ allocates pushes =>
    have pushed := (shown.allocate allocates).push pushes
    obtain ⟨_, _, _, _, rfl⟩ := allocate_yields.mp allocates
    obtain ⟨_, _, _, _, rfl⟩ := push_yields pushes
    refine ⟨_, pushed, rfl, rfl, fun robust _ virtual all blk line mem => ?_⟩
    rw [Function.update_apply] at mem
    split at mem
    · next same =>
      rcases mem_append.mp mem with old | new
      · exact all blk line (same ▸ old)
      · rw [mem_singleton.mp new]
        exact robust.moves blk _ r rfl virtual
    · exact all blk line mem
  | @array number _ _ _ _ _ _ _ allocates prepends renames =>
    obtain ⟨_, unused, _⟩ := noted_of_allocate allocates
    have prepended := (shown.allocate allocates).prepend prepends
    obtain ⟨_, _, _, _, rfl⟩ := allocate_yields.mp allocates
    obtain ⟨_, _, _, _, rfl⟩ := prepend_yields prepends
    obtain ⟨later, _, rfl⟩ := renameAfter_yields renames
    refine ⟨_, prepended.modifyAll _ (fun _ => rename_rename) later, rfl, rfl,
      fun {holds} robust closed virtual all blk line mem => ?_⟩
    obtain ⟨old, inside, rfl⟩ := mem_map.mp mem
    have kept : ∀ line ∈ code blk, holds blk line.2 ∧
        holds blk (line.2.rename r (.temp number)) := fun line inside =>
      ⟨all blk line inside, robust.renames blk _ r _ (all blk line inside) rfl fun named =>
        unused (closed.operands line.1 line.2 (shown.stored blk line inside) _ named)⟩
    have both : holds blk old.2 ∧ holds blk (old.2.rename r (.temp number)) := by
      rw [Function.update_apply] at inside
      split at inside
      · next same =>
        rcases mem_cons.mp inside with rfl | inside
        · -- The copy at the start names both registers, but it stays a copy.
          have renamed : ∀ op : Register, op.isVirtual = true →
              (if op = r then Register.temp number else op).isVirtual = true := by
            intro op isVirtual
            split
            · rfl
            · exact isVirtual
          exact ⟨robust.moves blk _ _ rfl virtual,
            robust.moves blk _ _ (renamed _ rfl) (renamed r virtual)⟩
        · exact kept old (same ▸ inside)
      · exact kept old inside
    dsimp only
    split
    · exact both.2
    · exact both.1

/-- Seeding keeps the blocks and their order, and what is robust where all registers are
noted. -/
theorem Edits.shows {order : List BlockId} (edits : Edits start prog)
    (shown : start.Shows order code) :
    ∃ code', prog.Shows order code' ∧ prog.preamble = start.preamble ∧
      prog.uniforms = start.uniforms ∧ ∀ {holds}, Robust holds → start.Closed →
        (∀ blk, ∀ line ∈ code blk, holds blk line.2) →
        ∀ blk, ∀ line ∈ code' blk, holds blk line.2 := by
  induction edits with
  | refl => exact ⟨code, shown, rfl, rfl, fun _ _ all => all⟩
  | separate edits _ virtual separates ih =>
    obtain ⟨_, shown', preamble, uniforms, keeps⟩ := ih
    obtain ⟨code', shown'', preamble', uniforms', keeps'⟩ := separates.shows shown'
    exact ⟨code', shown''.congr rfl rfl rfl, preamble'.trans preamble, uniforms'.trans uniforms,
      fun robust closed all =>
        keeps' robust (edits.closed closed) virtual (keeps robust closed all)⟩

/-! ### One member -/

/-- The pin that a descriptor gives to one of its members. -/
def Wants (bnd : BindingId) (desc : Descriptor) (offset : Nat) (pin : Pin) : Prop :=
  ∃ physical, desc.physicalAt offset = .ok physical ∧
    pin = ⟨bnd, offset.toUInt32, desc.bank, physical⟩

theorem Wants.binding_eq (wants : Wants bnd desc offset pin) : pin.binding = bnd := by
  obtain ⟨_, _, rfl⟩ := wants
  rfl

/-- What seeding some members of a descriptor keeps. -/
structure Advances (binding : BindingId) (pass next : Pass) : Prop where
  limits : next.graph.limits = pass.graph.limits
  pins : ∀ reg pin, pass.graph.pinAt reg = some pin → next.graph.pinAt reg = some pin
  others : ∀ other, other ≠ binding →
    next.program.descriptors.get? other = pass.program.descriptors.get? other
  edits : Edits pass.program next.program
  hoisted : next.hoisted = pass.hoisted

theorem Advances.refl (bnd : BindingId) (pass : Pass) : Advances bnd pass pass :=
  ⟨rfl, fun _ _ isPin => isPin, fun _ _ => rfl, .refl, rfl⟩

theorem Advances.trans (first : Advances bnd pass next) (second : Advances bnd next last) :
    Advances bnd pass last where
  limits := second.limits.trans first.limits
  pins r pin isPin := second.pins r pin (first.pins r pin isPin)
  others one apart := (second.others one apart).trans (first.others one apart)
  edits := first.edits.trans second.edits
  hoisted := second.hoisted.trans first.hoisted

/-- Separating a contested register leaves the constraints alike. -/
theorem Standing.separate (standing : Standing pass) (bnd : BindingId) (offset : Nat)
    (noted : pass.program.Noted r) (virtual : r.isVirtual = true)
    (ran : (separate desc r owner).Yields pass other next) :
    Standing { next with program := replaceMember bnd offset other next.program } ∧
    Advances bnd pass { next with program := replaceMember bnd offset other next.program } ∧
      pass.graph.Alike next.graph ∧ next.graph.pinAt other = none ∧ next.program.Noted other ∧
      next.program.descriptors = pass.program.descriptors := by
  obtain ⟨alike, unmarked, change, unpinned, hoisted⟩ :=
    separate_yields standing.sound standing.unmarked ran
  obtain ⟨fresh, grown, descs⟩ := change.noted standing.closed
  refine ⟨⟨alike.sound, unmarked,
    closed_replaceMember (change.closed standing.closed noted) fresh bnd offset,
    fun one pinned => ?_, fun one pinned => ?_⟩,
    ⟨alike.limits, fun one pin isPin => (alike.pin one).trans isPin, fun one apart => ?_,
      .separate .refl noted virtual change, hoisted⟩, alike, unpinned standing.noted, fresh, descs⟩
  · rw [alike.pin] at pinned
    exact (standing.noted one pinned).mono grown
  · rw [alike.pin] at pinned
    exact standing.virtual one pinned
  · show (next.program.descriptors.modify bnd _).get? one = _
    rw [get?_modify, if_neg apart, descs]

/-- Separating a contested register keeps what holds while descriptors are seeded. -/
theorem Consistent.separate (consistent : Consistent pass) (bnd : BindingId) (offset : Nat)
    (noted : pass.program.Noted r) (virtual : r.isVirtual = true)
    (ran : (separate desc r owner).Yields pass other next) :
    Consistent { next with program := replaceMember bnd offset other next.program } ∧
      (∀ r, next.graph.pinAt r = pass.graph.pinAt r) ∧ next.graph.pinAt other = none := by
  obtain ⟨standing, _, alike, unpinned, _⟩ :=
    consistent.toStanding.separate bnd offset noted virtual ran
  exact ⟨⟨standing, consistent.pinned.alike alike standing.unmarked,
    consistent.numbers.refines alike.refines⟩, alike.pin, unpinned⟩

/-- A register that gets a pin is virtual and noted, so the pass stands. -/
theorem Standing.attaches (standing : Standing pass) (noted : pass.program.Noted r)
    (virtual : r.isVirtual = true) (attaches : pass.graph.Attaches r pin g) :
    Standing { pass with graph := g } := by
  have cases' : ∀ one, g.pinAt one ≠ none → one = r ∨ pass.graph.pinAt one ≠ none := by
    intro one isPinned
    rw [attaches.pins] at isPinned
    by_cases same : one = r
    · exact .inl same
    · rw [if_neg same] at isPinned
      exact .inr isPinned
  refine ⟨attaches.sound, attaches.unmarked, standing.closed, fun one isPinned => ?_,
    fun one isPinned => ?_⟩
  · rcases cases' one isPinned with rfl | old
    · exact noted
    · exact standing.noted one old
  · rcases cases' one isPinned with rfl | old
    · exact virtual
    · exact standing.virtual one old

/-- The pins that were there before stay. -/
theorem pinAt_of_attaches {after : ChainGraph} {found : Pin} {one : Register}
    (attaches : g.Attaches r pin after) (unpinned : g.pinAt r = none)
    (isPin : g.pinAt one = some found) : after.pinAt one = some found := by
  have apart : one ≠ r := by
    rintro rfl
    rw [unpinned] at isPin
    cases isPin
  rw [attaches.pins, if_neg apart]
  exact isPin

theorem attaches_of_pinMember (sound : pass.graph.Sound) (unmarked : Tracking.Unmarked pass.graph)
    {prog : Program}
    (ran : (onGraph (pinMember desc r pin prev)).Yields { pass with program := prog } () next) :
    ∃ graph, next = { pass with program := prog, graph } ∧ r.isVirtual = true ∧
      pass.graph.Attaches r pin graph := by
  obtain ⟨graph, pins, rfl⟩ := onGraph_yields.mp ran
  obtain ⟨_, _, _, _, creates, _⟩ := pinMember_yields pins
  have virtual := (create_yields.mp creates).1
  exact ⟨graph, rfl, virtual, pins.leaves_eq ▸ sound.attaches_pinMember unmarked virtual⟩

/-- Pinning a register takes no pin away. -/
theorem Standing.pinMember (standing : Standing pass) (bnd : BindingId)
    (noted : pass.program.Noted r) (unpinned : pass.graph.pinAt r = none)
    (ran : (onGraph (pinMember desc r pin prev)).Yields pass () next) :
    Standing next ∧ Advances bnd pass next ∧ next.program = pass.program ∧
      next.graph.pinAt r = some pin := by
  obtain ⟨graph, rfl, virtual, attaches⟩ :=
    attaches_of_pinMember standing.sound standing.unmarked ran
  exact ⟨standing.attaches noted virtual attaches,
    ⟨attaches.limits, fun one found => pinAt_of_attaches attaches unpinned, fun _ _ => rfl, .refl,
      rfl⟩, rfl, by rw [attaches.pins, if_pos rfl]⟩

/-- The ways in which a member is seeded: its register may have its pin already, it may be
separated from the one whose pin is in the way, or it is not pinned yet. -/
inductive Seeds (binding : BindingId) (desc : Descriptor) (offset : Nat)
    (prev : Option Register) (pin : Pin) (pass : Pass) (reg : Register) :
    Register → Pass → Prop where
  | settled : pass.graph.pinAt reg = some pin → Seeds binding desc offset prev pin pass reg reg pass
  | separated {owner other separated next} : pass.graph.pinAt reg = some owner →
    (separate desc reg owner).Yields pass other separated →
    (onGraph (pinMember desc other pin prev)).Yields
      { separated with program := replaceMember binding offset other separated.program } () next →
    Seeds binding desc offset prev pin pass reg other next
  | pinned {next : Pass} : pass.graph.pinAt reg = none →
    (onGraph (pinMember desc reg pin prev)).Yields pass () next →
    Seeds binding desc offset prev pin pass reg reg next

theorem seeds_of_seedMember (ran : (seedMember bnd desc r offset prev).Yields pass other next) :
    r.isVirtual = true ∧ ∃ pin, Wants bnd desc offset pin ∧
      Seeds bnd desc offset prev pin pass r other next := by
  obtain ⟨notHardware, ran⟩ := yields_unless_contradict.mp ran
  obtain ⟨physical, isPhysical, ran⟩ := yields_lift_bind.mp ran
  refine ⟨by simpa using notHardware, _, ⟨physical, isPhysical, rfl⟩, ?_⟩
  rw [yields_get_bind] at ran
  simp only at ran
  split at ran
  · next owner isPin =>
    split at ran
    · next same =>
      obtain ⟨rfl, rfl⟩ := yields_pure.mp ran
      exact .settled (same ▸ isPin)
    · obtain ⟨_, separated, separates, ran⟩ := yields_bind.mp ran
      obtain ⟨_, _, replaced, ran⟩ := yields_bind_of onProgram_yields ran
      obtain rfl := yields_modify.mp replaced
      obtain ⟨_, pins, rfl⟩ := yields_bind_pure.mp ran
      exact .separated isPin separates pins
  · next unpinned =>
    obtain ⟨_, pins, rfl⟩ := yields_bind_pure.mp ran
    exact .pinned unpinned pins

theorem Standing.seedMember (standing : Standing pass)
    (found : pass.program.descriptors.get? bnd = some cur)
    (atPlace : cur.registers[offset]? = some r)
    (ran : (seedMember bnd desc r offset prev).Yields pass other next) :
    Standing next ∧ Advances bnd pass next ∧ next.program.descriptors.get? bnd =
        some { cur with registers := cur.registers.set offset other } ∧
      ∃ pin, Wants bnd desc offset pin ∧ next.graph.pinAt other = some pin := by
  have noted : pass.program.Noted r := standing.closed.members bnd cur found r
    (mem_of_getElem? atPlace)
  have unchanged : some cur = some { cur with registers := cur.registers.set offset r } := by
    obtain ⟨lt, rfl⟩ := List.getElem?_eq_some_iff.mp atPlace
    rw [set_getElem_self]
  obtain ⟨virtual, pin, wants, seeds⟩ := seeds_of_seedMember ran
  cases seeds with
  | settled isPin => exact ⟨standing, .refl bnd _, found.trans unchanged, pin, wants, isPin⟩
  | @separated owner other separated _ _ separates pins =>
    obtain ⟨standing', advances, _, unpinned, fresh, descs⟩ :=
      standing.separate bnd offset noted virtual separates
    obtain ⟨standing'', advances', prog, placed⟩ := standing'.pinMember bnd fresh unpinned pins
    refine ⟨standing'', advances.trans advances', ?_, pin, wants, placed⟩
    rw [prog]
    show (separated.program.descriptors.modify bnd _).get? bnd = _
    rw [get?_modify, if_pos rfl, descs, found, Option.map_some]
  | pinned unpinned pins =>
    obtain ⟨standing', advances, prog, placed⟩ := standing.pinMember bnd noted unpinned pins
    refine ⟨standing', advances, ?_, pin, wants, placed⟩
    rw [prog]
    exact found.trans unchanged

/-- Pinning a register gives no pin to another one. -/
theorem Consistent.pinMember (consistent : Consistent pass) (unpinned : pass.graph.pinAt r = none)
    (pre : ∀ first ∈ prev, pass.graph.pinAt first ≠ none)
    (pins : (onGraph (pinMember desc r pin prev)).Yields pass () next) :
    next.graph.Pinned ∧ next.graph.NumbersFit ∧ ∀ one found, next.graph.pinAt one = some found →
      pass.graph.pinAt one = some found ∨ one = r ∧ found = pin := by
  obtain ⟨graph, placing, rfl⟩ := onGraph_yields.mp pins
  obtain ⟨_, pinned, numbers, _, placed⟩ :=
    consistent.pinned.pinMember consistent.numbers unpinned pre placing
  refine ⟨pinned, numbers, fun one found isPin => ?_⟩
  rw [placed] at isPin
  split at isPin
  · next same => exact .inr ⟨same, (Option.some_inj.mp isPin).symm⟩
  · exact .inl isPin

theorem Consistent.seeds (consistent : Consistent pass) (noted : pass.program.Noted r)
    (virtual : r.isVirtual = true) (pre : ∀ first ∈ prev, pass.graph.pinAt first ≠ none)
    (seeds : Seeds bnd desc offset prev pin pass r other next) :
    next.graph.Pinned ∧ next.graph.NumbersFit ∧ ∀ one found, next.graph.pinAt one = some found →
      pass.graph.pinAt one = some found ∨ one = other ∧ found = pin := by
  cases seeds with
  | settled => exact ⟨consistent.pinned, consistent.numbers, fun _ _ => .inl⟩
  | separated _ separates pins =>
    obtain ⟨consistent', samePins, unpinned⟩ :=
      consistent.separate bnd offset noted virtual separates
    simp only [← samePins] at pre ⊢
    exact consistent'.pinMember unpinned pre pins
  | pinned unpinned pins => exact consistent.pinMember unpinned pre pins

theorem seedMember_yields (consistent : Consistent pass)
    (found : pass.program.descriptors.get? bnd = some cur)
    (atPlace : cur.registers[offset]? = some r)
    (pre : ∀ first ∈ prev, pass.graph.pinAt first ≠ none)
    (ran : (seedMember bnd desc r offset prev).Yields pass other next) :
    Consistent next ∧ Advances bnd pass next ∧ next.program.descriptors.get? bnd =
        some { cur with registers := cur.registers.set offset other } ∧
      ∃ pin, Wants bnd desc offset pin ∧ next.graph.pinAt other = some pin := by
  obtain ⟨standing, advances, placed⟩ := consistent.toStanding.seedMember found atPlace ran
  obtain ⟨virtual, pin, _, seeds⟩ := seeds_of_seedMember ran
  have noted := consistent.closed.members bnd cur found r (mem_of_getElem? atPlace)
  obtain ⟨pinned, numbers, _⟩ := consistent.seeds noted virtual pre seeds
  exact ⟨⟨standing, pinned, numbers⟩, advances, placed⟩

/-! ### Programs that name any registers -/

/-- What holds of a pass while descriptors are seeded, whichever registers its program names. -/
structure Steady (start : Program) (pass : Pass) : Prop where
  sound : pass.graph.Sound
  unmarked : Tracking.Unmarked pass.graph
  shown : ∀ {order code}, start.Shows order code → ∃ code', pass.program.Shows order code'

theorem Steady.seedMember (steady : Steady start pass)
    (yields : (seedMember bnd desc r offset prev).Yields pass other next) : Steady start next := by
  obtain ⟨_, _, _, seeds⟩ := seeds_of_seedMember yields
  cases seeds with
  | settled => exact steady
  | separated _ separates pins =>
    obtain ⟨alike, unmarked, change, _⟩ := separate_yields steady.sound steady.unmarked separates
    obtain ⟨graph, rfl, _, attaches⟩ := attaches_of_pinMember alike.sound unmarked pins
    refine ⟨attaches.sound, attaches.unmarked, fun shown => ?_⟩
    obtain ⟨_, shown'⟩ := steady.shown shown
    obtain ⟨code', shown'', _⟩ := change.shows shown'
    exact ⟨code', shown''.congr rfl rfl rfl⟩
  | pinned _ pins =>
    obtain ⟨graph, rfl, _, attaches⟩ := attaches_of_pinMember steady.sound steady.unmarked pins
    exact ⟨attaches.sound, attaches.unmarked, steady.shown⟩

/-- What seeding any member keeps holds after all descriptors are seeded. -/
theorem leads_seedAll {holds : Pass → List Note → Prop}
    (member : ∀ bnd desc r offset prev,
      (seedMember bnd desc r offset prev).Leads holds fun _ => holds) :
    seedAll.Leads holds fun _ => holds := by
  have members : ∀ bnd desc members prev,
      (seedMembers bnd desc members prev).Leads holds fun _ => holds := by
    intro bnd desc members
    induction members with
    | nil => exact fun _ => leads_pure fun _ _ => id
    | cons _ rest ih => exact fun prev => leads_bind (member _ _ _ _ _) fun _ => ih _
  have each : ∀ bindings, (seedEach bindings).Leads holds fun _ => holds := by
    intro bindings
    induction bindings with
    | nil => exact leads_pure fun _ _ => id
    | cons bnd rest ih =>
      refine leads_bind (leads_get_bind fun _ => leads_lift_bind fun _ _ => ?_) fun _ => ih
      exact (members _ _ _ _).weaken fun _ _ before => before.1 ▸ before.2
  exact leads_get_bind fun _ => (each _).weaken fun _ _ before => before.1 ▸ before.2

/-- Seeding keeps the constraints sound and the blocks in their order, whichever registers the
program names. -/
theorem steady_of_seedAll (yields : seedAll.Yields (.start target prog) () next) :
    Steady prog next := by
  have start : Steady prog (.start target prog) :=
    ⟨sound_empty target.limits, (pinned_empty target.limits).unmarked, fun shown => ⟨_, shown⟩⟩
  have leads : seedAll.Leads (fun pass _ => Steady prog pass) fun _ pass _ => Steady prog pass :=
    leads_seedAll fun _ _ _ _ _ _ _ steady _ _ => steady.seedMember
  exact leads _ [] start () next yields

/-! ### Whole descriptors -/

/-- Every member of a descriptor is pinned as the descriptor says. -/
def Settled (pass : Pass) (bnd : BindingId) : Prop :=
  ∃ desc, pass.program.descriptors.get? bnd = some desc ∧
    ∀ offset r, desc.registers[offset]? = some r →
      ∃ pin, Wants bnd desc offset pin ∧ pass.graph.pinAt r = some pin

theorem Settled.mono (settled : Settled pass bnd)
    (same : next.program.descriptors.get? bnd = pass.program.descriptors.get? bnd)
    (pins : ∀ r pin, pass.graph.pinAt r = some pin → next.graph.pinAt r = some pin) :
    Settled next bnd := by
  obtain ⟨desc, found, members⟩ := settled
  refine ⟨desc, same.trans found, fun offset r placed => ?_⟩
  obtain ⟨pin, wants, isPin⟩ := members offset r placed
  exact ⟨pin, wants, pins r pin isPin⟩

theorem Settled.advances {one : BindingId} (settled : Settled pass one)
    (advances : Advances bnd pass next) (apart : one ≠ bnd) : Settled next one :=
  settled.mono (advances.others one apart) advances.pins

theorem getElem?_of_drop (left : regs.drop count = r :: rest) : regs[count]? = some r := by
  rw [← head?_drop, left, head?_cons]

theorem drop_set_of_drop (left : regs.drop count = r :: rest) :
    (regs.set count other).drop (count + 1) = rest := by
  rw [drop_set_of_lt (Nat.lt_succ_self count), ← tail_drop, left, tail_cons]

theorem Standing.seedMembers (standing : Standing pass) (found : pass.program.descriptors.get? bnd =
      some { desc with registers := regs }) (left : regs.drop count = members)
    (seeded : ∀ offset r, offset < count → regs[offset]? = some r →
      ∃ pin, Wants bnd desc offset pin ∧ pass.graph.pinAt r = some pin)
    (ran : (seedMembers bnd desc (members.zipIdx count) prev).Yields
      pass () next) : Standing next ∧ Advances bnd pass next ∧ Settled next bnd := by
  induction members generalizing pass regs count prev with
  | nil =>
    obtain ⟨_, rfl⟩ := yields_pure.mp ran
    refine ⟨standing, .refl bnd _, _, found, fun offset r placed => ?_⟩
    refine seeded offset r ?_ placed
    have short : regs.length ≤ count := drop_eq_nil_iff.mp left
    have lt := lt_of_getElem? placed
    simp only at lt
    omega
  | cons r rest ih =>
    rw [zipIdx_cons] at ran
    obtain ⟨other, mid, seeds, ran⟩ := yields_bind.mp ran
    have placed := getElem?_of_drop left
    obtain ⟨standing', advances, found', pin, wants, isPin⟩ :=
      standing.seedMember found placed seeds
    have seeded' : ∀ offset one, offset < count + 1 → (regs.set count other)[offset]? = some one →
        ∃ pin, Wants bnd desc offset pin ∧ mid.graph.pinAt one = some pin := by
      intro offset one bound isOne
      by_cases here : offset = count
      · subst here
        have lt : offset < regs.length := lt_of_getElem? placed
        rw [getElem?_set_self lt] at isOne
        cases isOne
        exact ⟨pin, wants, isPin⟩
      · rw [getElem?_set_ne (Ne.symm here)] at isOne
        obtain ⟨pin', wants', isPin'⟩ := seeded offset one (by omega) isOne
        exact ⟨pin', wants', advances.pins one pin' isPin'⟩
    obtain ⟨standing'', advances', settled⟩ := ih standing' found'
      (drop_set_of_drop left) seeded' ran
    exact ⟨standing'', advances.trans advances', settled⟩

/-- What every member of a descriptor keeps holds after all of them are seeded. -/
theorem Consistent.seedMembers {motive : Pass → Prop}
    (step : ∀ {pass next cur r one offset prev}, Consistent pass →
      pass.program.descriptors.get? bnd = some cur → cur.kind = desc.kind →
      cur.registers[offset]? = some r → (∀ first ∈ prev, pass.graph.pinAt first ≠ none) →
      (seedMember bnd desc r offset prev).Yields pass one next →
      motive pass → motive next) (consistent : Consistent pass) (holds : motive pass)
    (found : pass.program.descriptors.get? bnd =
      some { desc with registers := regs }) (left : regs.drop count = members)
    (pre : ∀ first ∈ prev, pass.graph.pinAt first ≠ none)
    (ran : (seedMembers bnd desc (members.zipIdx count) prev).Yields
      pass () next) : Consistent next ∧ motive next := by
  induction members generalizing pass regs count prev with
  | nil =>
    obtain ⟨_, rfl⟩ := yields_pure.mp ran
    exact ⟨consistent, holds⟩
  | cons r rest ih =>
    rw [zipIdx_cons] at ran
    obtain ⟨one, mid, seeds, ran⟩ := yields_bind.mp ran
    have placed := getElem?_of_drop left
    obtain ⟨consistent', _, found', pin, _, isPin⟩ :=
      seedMember_yields consistent found placed pre seeds
    have holds' := step consistent found rfl placed pre seeds holds
    refine ih consistent' holds' found' (drop_set_of_drop left) ?_ ran
    intro first isFirst
    cases isFirst
    rw [isPin]
    exact Option.some_ne_none pin

theorem Standing.seed (standing : Standing pass) (ran : (Seeding.seed bnd).Yields pass () next) :
    Standing next ∧ Advances bnd pass next ∧ Settled next bnd := by
  unfold Seeding.seed at ran
  rw [yields_get_bind] at ran
  obtain ⟨desc, found, ran⟩ := yields_lift_bind.mp ran
  refine standing.seedMembers (get_eq_ok.mp found) drop_zero ?_ ran
  intro offset r no
  exact absurd no (Nat.not_lt_zero offset)

theorem seed_yields (consistent : Consistent pass) (ran : (seed bnd).Yields pass () next) :
    Consistent next ∧ Advances bnd pass next ∧ Settled next bnd := by
  refine ⟨?_, (consistent.toStanding.seed ran).2⟩
  unfold seed at ran
  rw [yields_get_bind] at ran
  obtain ⟨desc, found, ran⟩ := yields_lift_bind.mp ran
  have seeded := consistent.seedMembers (motive := fun _ => True) (fun _ _ _ _ _ _ _ => trivial)
    trivial (get_eq_ok.mp found) drop_zero (fun _ no => by cases no) ran
  exact seeded.1

/-- Seeding descriptors one after the other settles each of them. -/
theorem seedEach_yields {bindings : List BindingId} (consistent : Consistent pass)
    (ran : (seedEach bindings).Yields pass () next) :
    Consistent next ∧ Edits pass.program next.program ∧ next.hoisted = pass.hoisted ∧
      next.graph.limits = pass.graph.limits ∧
      ∀ bnd, bnd ∈ bindings ∨ Settled pass bnd → Settled next bnd := by
  induction bindings generalizing pass with
  | nil =>
    obtain ⟨_, rfl⟩ := yields_pure.mp ran
    refine ⟨consistent, .refl, rfl, rfl, fun bnd => ?_⟩
    rintro (no | settled)
    · cases no
    · exact settled
  | cons head rest ih =>
    obtain ⟨_, mid, seeds, ran⟩ := yields_bind.mp ran
    obtain ⟨consistent', advances, settled⟩ := seed_yields consistent seeds
    obtain ⟨consistent'', edits, hoisted, limits, settles⟩ := ih consistent' ran
    refine ⟨consistent'', advances.edits.trans edits, hoisted.trans advances.hoisted,
      limits.trans advances.limits, fun bnd listed => settles bnd ?_⟩
    by_cases same : bnd = head
    · rw [same]
      exact .inr settled
    · rcases listed with mem | old
      · exact .inl ((mem_cons.mp mem).resolve_left same)
      · exact .inr (old.advances advances same)

theorem mem_order (found : prog.descriptors.get? bnd = some desc) : bnd ∈ order prog := by
  have listed : bnd ∈ ofKind prog desc.kind :=
    mem_map.mpr ⟨(bnd, desc), mem_filter.mpr ⟨mem_toList.mpr found, decide_eq_true rfl⟩, rfl⟩
  unfold order
  rw [mem_append, mem_append]
  cases kind : desc.kind with
  | input => exact .inl (.inl (kind ▸ listed))
  | array => exact .inl (.inr (kind ▸ listed))
  | output => exact .inr (kind ▸ listed)

/-- Seeding the descriptors of a program settles all of them. -/
theorem seedAll_yields (closed : prog.Closed) (ran : seedAll.Yields (.start target prog) () next) :
    Consistent next ∧ Edits prog next.program ∧ next.hoisted = .empty ∧
      next.graph.limits = target.limits ∧
      ∀ bnd desc, next.program.descriptors.get? bnd = some desc → Settled next bnd := by
  unfold seedAll at ran
  rw [yields_get_bind] at ran
  obtain ⟨consistent, edits, hoisted, limits, settled⟩ :=
    seedEach_yields (consistent_start closed) ran
  refine ⟨consistent, edits, hoisted, limits, fun bnd desc found => ?_⟩
  obtain ⟨orig, isOriginal⟩ := edits.exists_descriptor closed bnd desc found
  exact settled bnd (.inl (mem_order isOriginal))

end Seeding

end RegisterChains

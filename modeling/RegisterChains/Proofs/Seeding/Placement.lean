/-
This file says exactly what seeding the descriptors of a program comes to. The rows of members
that are in place grow until every descriptor has its own, so no register is a member twice, and
the members of a descriptor are one whole chain of the constraints: pinned in order, with the
parities of their numbers or of the descriptor.

A pin has room for fewer offsets than there are numbers, but registers in use are fewer still.
-/

import RegisterChains.Proofs.ClosingCheck
import RegisterChains.Proofs.Seeding.Outputs
import RegisterChains.Proofs.Seeding.Rows

namespace RegisterChains

namespace Seeding

open ChainGraph Function List Step

variable {declared : BindingId → Option Descriptor} {rows : BindingId → List Register}
  {g : ChainGraph} {pass next : Pass} {bnd bnd' : BindingId} {desc descriptor' : Descriptor}
  {offset offset' : Nat} {r other : Register} {prog : Program} {left : List BindingId} {id : NodeId}

/-! ### No register is in two places -/

/-- Members in different places have different pins, as long as their offsets fit a pin. -/
theorem Laid.place_unique (laid : Laid declared rows g)
    (seat : Seats declared rows bnd desc offset r)
    (seat' : Seats declared rows bnd' descriptor' offset' r) (short : offset < UInt32.size)
    (short' : offset' < UInt32.size) : bnd = bnd' ∧ offset = offset' := by
  obtain ⟨_, pin, ⟨_, _, rfl⟩, isPin⟩ := laid.pinned _ _ _ _ seat
  obtain ⟨_, pin', ⟨_, _, rfl⟩, isPin'⟩ := laid.pinned _ _ _ _ seat'
  have same := isPin.symm.trans isPin'
  rw [Option.some_inj, Pin.mk.injEq] at same
  refine ⟨same.1, ?_⟩
  rw [← toNat_toUInt32 short, ← toNat_toUInt32 short', same.2.1]

/-- Registers in use are fewer than offsets that fit a pin, so no row is longer than that. -/
theorem Laid.few (laid : Laid declared rows pass.graph) (consistent : Consistent pass)
    (isDeclared : declared bnd = some desc) : (rows bnd).length < UInt32.size := by
  by_contra long
  have isLength : ((rows bnd).take UInt32.size).length = UInt32.size := by
    rw [length_take]
    omega
  have seat : ∀ {offset r}, ((rows bnd).take UInt32.size)[offset]? = some r →
      offset < UInt32.size ∧ Seats declared rows bnd desc offset r := by
    intro offset r placed
    have inside := lt_of_getElem? placed
    rw [isLength] at inside
    rw [getElem?_take_of_lt inside] at placed
    exact ⟨inside, isDeclared, placed⟩
  have distinct : ((rows bnd).take UInt32.size).Nodup := by
    rw [nodup_iff_getElem?_ne_getElem?]
    intro lo hi below bound same
    have placed := getElem?_eq_getElem bound
    obtain ⟨short, here⟩ := seat placed
    obtain ⟨short', here'⟩ := seat (same.trans placed)
    exact absurd (laid.place_unique here' here short' short).2 (by omega)
  have all : ∀ r ∈ (rows bnd).take UInt32.size, r.isVirtual = true ∧ pass.program.Noted r := by
    intro r mem
    obtain ⟨offset, inside, isMember⟩ := getElem_of_mem mem
    obtain ⟨virt, pin, _, isPin⟩ := laid.pinned _ _ _ _
      (seat ((getElem?_eq_getElem inside).trans (congrArg some isMember))).2
    exact ⟨virt, consistent.noted r (by rw [isPin]; simp)⟩
  have few := Program.length_le_of_noted distinct all
  rw [isLength] at few
  exact absurd (UInt32.toNat_lt_size pass.program.nextTemp) (by omega)

theorem Laid.seats_unique (laid : Laid declared rows pass.graph) (consistent : Consistent pass)
    (seat : Seats declared rows bnd desc offset r)
    (seat' : Seats declared rows bnd' descriptor' offset' r) : bnd = bnd' ∧ offset = offset' :=
  laid.place_unique seat seat'
    ((lt_of_getElem? seat.2).trans (laid.few consistent seat.1))
    ((lt_of_getElem? seat'.2).trans (laid.few consistent seat'.1))

/-! ### Seeding members -/

theorem seedMember_lays (consistent : Consistent pass) (laid : Laid declared rows pass.graph)
    (isDeclared : declared bnd = some desc)
    (ran : (seedMember bnd desc r (rows bnd).length (rows bnd).getLast?).Yields pass other next) :
    Laid declared (update rows bnd (rows bnd ++ [other])) next.graph := by
  obtain ⟨_, pin, wants, seeds⟩ := seeds_of_seedMember ran
  cases seeds with
  | settled isPin =>
    -- The pin would be that of a member in place, whose offset is another one.
    obtain ⟨descriptor', offset, seat⟩ := laid.owned r pin isPin
    rw [wants.binding_eq] at seat
    obtain ⟨_, pin', wants', isPin'⟩ := laid.pinned _ _ _ _ seat
    cases isPin.symm.trans isPin'
    have inside := lt_of_getElem? seat.2
    have few := laid.few consistent isDeclared
    obtain ⟨_, _, rfl⟩ := wants
    obtain ⟨_, _, same⟩ := wants'
    have offsets := congrArg (fun pin : Pin => pin.offset.toNat) same
    simp only [toNat_toUInt32 few, toNat_toUInt32 (inside.trans few)] at offsets
    omega
  | separated _ separates pins =>
    obtain ⟨alike, unmarked, change, unpinned, _⟩ :=
      separate_yields consistent.pinned.sound consistent.pinned.unmarked separates
    have unpinned := unpinned consistent.noted
    obtain ⟨g, pinsMember, rfl⟩ := Pass.onGraph_yields.mp pins
    have laid' := laid.alike alike
    have pinned := consistent.pinned.alike alike unmarked
    exact laid'.push isDeclared unpinned wants
      (laid'.appends pinned isDeclared unpinned wants pinsMember)
  | pinned unpinned pins =>
    obtain ⟨g, pinsMember, rfl⟩ := Pass.onGraph_yields.mp pins
    exact laid.push isDeclared unpinned wants
      (laid.appends consistent.pinned isDeclared unpinned wants pinsMember)

/-- What holds of a pass in which some members of a descriptor are still to be seeded. -/
structure Filling (declared : BindingId → Option Descriptor) (binding : BindingId)
    (desc : Descriptor) (rows : BindingId → List Register) (members : List Register)
    (pass : Pass) : Prop where
  consistent : Consistent pass
  laid : Laid declared rows pass.graph
  isDeclared : declared binding = some desc
  found : pass.program.descriptors.get? binding =
    some { desc with registers := rows binding ++ members }

/-- One more member is in its row. -/
theorem Filling.grows {rest : List Register}
    (filling : Filling declared bnd desc rows (r :: rest) pass)
    (ran : (seedMember bnd desc r (rows bnd).length (rows bnd).getLast?).Yields pass other next) :
    Filling declared bnd desc (update rows bnd (rows bnd ++ [other]))
      rest next ∧ Advances bnd pass next := by
  have placed : (rows bnd ++ r :: rest)[(rows bnd).length]? = some r := by simp
  have pre : ∀ first ∈ (rows bnd).getLast?, pass.graph.pinAt first ≠ none := by
    intro first isLast
    obtain ⟨offset, _, seat⟩ := seats_last filling.isDeclared isLast
    obtain ⟨_, pin, _, isPin⟩ := filling.laid.pinned _ _ _ _ seat
    rw [isPin]
    simp
  obtain ⟨consistent, advances, found, _⟩ :=
    seedMember_yields filling.consistent filling.found placed pre ran
  refine ⟨⟨consistent, seedMember_lays filling.consistent filling.laid filling.isDeclared ran,
    filling.isDeclared, ?_⟩, advances⟩
  rw [found]
  simp

/-- Seeding the members of a descriptor that are left completes its row. -/
theorem Filling.all {ms : List Register} (filling : Filling declared bnd desc rows ms pass)
    (ran : (seedMembers bnd desc (ms.zipIdx (rows bnd).length)
      (rows bnd).getLast?).Yields pass () next) :
    ∃ row, Filling declared bnd desc (update rows bnd row) [] next ∧
      Advances bnd pass next ∧ row.length = (rows bnd).length + ms.length := by
  induction ms generalizing pass rows with
  | nil =>
    obtain ⟨_, rfl⟩ := yields_pure.mp ran
    refine ⟨rows bnd, ?_, .refl bnd _, rfl⟩
    rw [update_eq_self]
    exact filling
  | cons r rest ih =>
    rw [zipIdx_cons] at ran
    obtain ⟨one, mid, seeds, ran⟩ := yields_bind.mp ran
    obtain ⟨filling', advances⟩ := filling.grows seeds
    have length : (update rows bnd (rows bnd ++ [one]) bnd).length =
        (rows bnd).length + 1 := by simp
    have last : (update rows bnd (rows bnd ++ [one]) bnd).getLast? = some one := by simp
    rw [← length, ← last] at ran
    obtain ⟨row, filled, advances', isLength⟩ := ih filling' ran
    rw [update_idem] at filled
    refine ⟨row, filled, advances.trans advances', ?_⟩
    rw [isLength, length, length_cons]
    omega

/-- What holds of a pass in which some descriptors are still to be seeded. -/
structure Seating (prog : Program) (left : List BindingId) (rows : BindingId → List Register)
    (pass : Pass) : Prop where
  consistent : Consistent pass
  laid : Laid prog.descriptors.get? rows pass.graph
  ahead : ∀ binding ∈ left, rows binding = [] ∧
    pass.program.descriptors.get? binding = prog.descriptors.get? binding
  behind : ∀ binding desc, prog.descriptors.get? binding = some desc →
    binding ∉ left → (rows binding).length = desc.registers.length ∧
      pass.program.descriptors.get? binding = some { desc with registers := rows binding }

/-- No member of the next descriptor is seeded yet. -/
theorem Seating.filling (seating : Seating prog (bnd :: left) rows pass)
    (isDeclared : prog.descriptors.get? bnd = some desc) :
    Filling prog.descriptors.get? bnd desc rows desc.registers pass := by
  obtain ⟨bare, same⟩ := seating.ahead bnd mem_cons_self
  refine ⟨seating.consistent, seating.laid, isDeclared, ?_⟩
  rw [same, isDeclared, bare, nil_append]

/-- One more descriptor is seeded. -/
theorem Seating.seed (isNew : bnd ∉ left) (seating : Seating prog (bnd :: left) rows pass)
    (ran : (Seeding.seed bnd).Yields pass () next) : ∃ rows, Seating prog left rows next := by
  unfold Seeding.seed at ran
  rw [yields_get_bind, yields_lift_bind] at ran
  obtain ⟨desc, found, seeds⟩ := ran
  have found := Arena.get_eq_ok.mp found
  obtain ⟨bare, same⟩ := seating.ahead bnd mem_cons_self
  have isDeclared := same.symm.trans found
  have start : (seedMembers bnd desc
      (desc.registers.zipIdx (rows bnd).length) (rows bnd).getLast?).Yields pass ()
      next := by
    rw [bare]
    exact seeds
  obtain ⟨row, filled, advances, isLength⟩ := (seating.filling isDeclared).all start
  refine ⟨_, filled.consistent, filled.laid, fun one mem => ?_,
    fun one declared isOther outside => ?_⟩
  · have apart : one ≠ bnd := fun equal => isNew (equal ▸ mem)
    rw [update_of_ne apart, advances.others one apart]
    exact seating.ahead one (mem_cons_of_mem bnd mem)
  · by_cases here : one = bnd
    · subst here
      cases isOther.symm.trans isDeclared
      have found := filled.found
      rw [update_self, append_nil] at found
      rw [update_self, isLength, bare]
      exact ⟨Nat.zero_add _, found⟩
    · rw [update_of_ne here, advances.others one here]
      refine seating.behind one declared isOther fun mem => ?_
      rcases mem_cons.mp mem with equal | inside
      · exact here equal
      · exact outside inside

theorem seedEach_lays (distinct : left.Nodup) (seating : Seating prog left rows pass)
    (ran : (seedEach left).Yields pass () next) : ∃ rows, Seating prog [] rows next := by
  induction left generalizing pass rows with
  | nil =>
    obtain ⟨_, rfl⟩ := yields_pure.mp ran
    exact ⟨rows, seating⟩
  | cons bnd rest ih =>
    obtain ⟨isNew, distinct⟩ := nodup_cons.mp distinct
    obtain ⟨_, mid, seeds, ran⟩ := yields_bind.mp ran
    obtain ⟨rows', seating'⟩ := seating.seed isNew seeds
    exact ih distinct seating' ran

/-- No descriptor is seeded twice. -/
theorem nodup_order (prog : Program) : (order prog).Nodup := by
  have each : ∀ kind, (ofKind prog kind).Nodup := fun kind =>
    (filter_sublist.map Prod.fst).nodup prog.descriptors.nodup_toList
  have apart : ∀ {kind kind'}, kind ≠ kind' → ∀ bnd ∈ ofKind prog kind,
      ∀ bnd' ∈ ofKind prog kind', bnd ≠ bnd' := by
    rintro kind kind' differ bnd mem _ mem' rfl
    obtain ⟨desc, found, isKind⟩ := mem_ofKind.mp mem
    obtain ⟨descriptor', found', isKind'⟩ := mem_ofKind.mp mem'
    cases found.symm.trans found'
    exact differ (isKind.symm.trans isKind')
  refine nodup_append.mpr ⟨nodup_append.mpr ⟨each .input, each .array,
    apart (by simp)⟩, each .output, fun bnd mem => ?_⟩
  rcases mem_append.mp mem with input | array
  · exact apart (by simp) bnd input
  · exact apart (by simp) bnd array

theorem seating_start (target : Target) (closed : prog.Closed) :
    Seating prog (order prog) (fun _ => []) (.start target prog) := by
  refine ⟨consistent_start closed, laid_empty prog.descriptors.get? target.limits,
    fun _ _ => ⟨rfl, rfl⟩, ?_⟩
  intro bnd desc found outside
  exact absurd (mem_order found) outside

theorem seedAll_lays {target : Target} (closed : prog.Closed)
    (ran : seedAll.Yields (.start target prog) () next) : ∃ rows, Seating prog [] rows next := by
  unfold seedAll at ran
  rw [yields_get_bind] at ran
  exact seedEach_lays (nodup_order prog) (seating_start target closed) ran

/-! ### Rows as chains of nodes -/

/-- A row is a whole chain. -/
theorem Laid.isRun (laid : Laid declared rows pass.graph) (consistent : Consistent pass)
    (isDeclared : declared bnd = some desc) (filled : rows bnd ≠ []) :
    IsRun (pass.graph.Follows false) (rows bnd) where
  nonempty := filled
  linked := by
    refine isChain_iff_getElem.mpr fun offset inside => ?_
    exact (laid.linked false _ _).mpr ⟨bnd, desc, offset,
      ⟨isDeclared, getElem?_eq_getElem _⟩, ⟨isDeclared, getElem?_eq_getElem _⟩, nofun⟩
  first elem isHead pre follows := by
    obtain ⟨bnd', descriptor', offset, _, seat, _⟩ := (laid.linked false _ _).mp follows
    have seat' : Seats declared rows bnd desc 0 elem :=
      ⟨isDeclared, head?_eq_getElem?.symm.trans isHead⟩
    exact absurd (laid.seats_unique consistent seat seat').2 (Nat.succ_ne_zero offset)
  last elem isLast next follows := by
    obtain ⟨bnd', descriptor', offset, seat, seat', _⟩ := (laid.linked false _ _).mp follows
    obtain ⟨offset', isEnd, final⟩ := seats_last isDeclared isLast
    obtain ⟨rfl, rfl⟩ := laid.seats_unique consistent seat final
    have inside := lt_of_getElem? seat'.2
    omega

/-- The link behind a member is optional exactly if its descriptor is advisory. -/
theorem Laid.optionalLink (laid : Laid declared rows pass.graph) (consistent : Consistent pass)
    (seat : Seats declared rows bnd desc offset r) (further : offset + 1 < (rows bnd).length)
    {n : Node} (named : pass.graph.find r = some id) (isNode : pass.graph.node? id = some n) :
    n.optionalLink = desc.advisory := by
  have seat' : Seats declared rows bnd desc (offset + 1) ((rows bnd)[offset + 1]) :=
    ⟨seat.1, getElem?_eq_getElem further⟩
  have follows := (laid.linked false _ _).mpr ⟨_, _, _, seat, seat', nofun⟩
  cases advisory : desc.advisory with
  | false =>
    obtain ⟨id', _, named', _, n', isNode', _, strict⟩ :=
      (laid.linked true _ _).mpr ⟨_, _, _, seat, seat', fun _ => advisory⟩
    cases named.symm.trans named'
    cases isNode.symm.trans isNode'
    exact strict rfl
  | true =>
    obtain ⟨id', another, named', named'', n', isNode', onward, _⟩ := follows
    cases named.symm.trans named'
    cases isNode.symm.trans isNode'
    cases optional : n.optionalLink with
    | true => rfl
    | false =>
      obtain ⟨_, _, _, seated, _, strict⟩ := (laid.linked true _ _).mp
        ⟨id, another, named, named'', n, isNode, onward, fun _ => optional⟩
      obtain ⟨rfl, _⟩ := laid.seats_unique consistent seated seat
      cases seated.1.symm.trans seat.1
      rw [advisory] at strict
      exact absurd (strict rfl) (by simp)

/-! ### What seeding comes to -/

/-- A node of a member: it has the pin that the descriptor gives to its offset, the parity of
its number, or that of the descriptor, alternating, if it has none, and a link behind it that is
optional exactly if the descriptor is advisory. -/
structure Placed (binding : BindingId) (desc : Descriptor) (offset : Nat) (pin : Pin)
    (node : Node) : Prop where
  pinned : node.pin = some pin
  owner : pin.binding = binding
  place : pin.offset.toNat = offset
  bank : pin.bank = desc.bank
  number : pin.physical.map UInt32.toNat = desc.physical.map (·.toNat + offset)
  parity : node.parity = pin.physical.elim (desc.parity.atOffset offset) .ofNumber
  optional : offset + 1 < desc.registers.length → node.optionalLink = desc.advisory

/-- Seeded descriptors differ from the declared ones in their registers only; no register is a
member twice; and the nodes of the members of a descriptor are, in their order, one whole
chain. -/
structure Seated (prog : Program) (seeded : Pass) : Prop where
  kept : ∀ binding desc, prog.descriptors.get? binding = some desc →
    ∃ regs, regs.length = desc.registers.length ∧
      seeded.program.descriptors.get? binding = some { desc with registers := regs }
  distinct : ∀ binding binding' desc descriptor' (offset offset' : Nat) reg,
    seeded.program.descriptors.get? binding = some desc →
    seeded.program.descriptors.get? binding' = some descriptor' →
    desc.registers[offset]? = some reg →
    descriptor'.registers[offset']? = some reg → binding = binding' ∧ offset = offset'
  placed : ∀ binding desc, seeded.program.descriptors.get? binding = some desc →
    ∃ ids, desc.registers.map seeded.graph.find = ids.map some ∧
      ∀ offset id, ids[offset]? = some id → seeded.graph.chain (seeded.graph.headOf id) = ids ∧
          ∃ node pin, seeded.graph.node? id = some node ∧ Placed binding desc offset pin node

/-- The number of a member, if its descriptor gives one. -/
theorem Wants.number {pin : Pin} (wants : Wants bnd desc offset pin)
    (short : offset < UInt32.size) :
    pin.physical.map UInt32.toNat = desc.physical.map (·.toNat + offset) := by
  obtain ⟨physical, isPhysical, rfl⟩ := wants
  unfold Descriptor.physicalAt at isPhysical
  cases base : desc.physical with
  | none =>
    rw [base] at isPhysical
    cases isPhysical
    rfl
  | some first =>
    simp only [base, toNat_toUInt32 short] at isPhysical
    split at isPhysical
    · next fits =>
      cases isPhysical
      rw [Option.map_some, toNat_toUInt32 fits, Option.map_some]
    · cases isPhysical

theorem Seating.placed (seating : Seating prog [] rows pass)
    (isDeclared : prog.descriptors.get? bnd = some desc) (placed : (rows bnd)[offset]? = some r)
    {n : Node} (named : pass.graph.find r = some id) (isNode : pass.graph.node? id = some n) :
    ∃ pin, Placed bnd { desc with registers := rows bnd } offset pin n := by
  have seat : Seats prog.descriptors.get? rows bnd desc offset r := ⟨isDeclared, placed⟩
  have short : offset < UInt32.size := (lt_of_getElem? placed).trans
    (seating.laid.few seating.consistent isDeclared)
  obtain ⟨_, pin, wants, isPin⟩ := seating.laid.pinned _ _ _ _ seat
  have number := wants.number short
  have parity : n.parity = pin.physical.elim (desc.parity.atOffset offset) .ofNumber := by
    rw [← parityOf_of_find named isNode]
    cases physical : pin.physical with
    | none =>
      rw [physical] at number
      exact seating.laid.parity _ _ _ _ seat (Option.map_eq_none_iff.mp number.symm)
    | some number => exact seating.consistent.numbers r pin number isPin physical
  rw [pinAt_of_find named isNode] at isPin
  refine ⟨pin, isPin, wants.binding_eq, ?_, ?_, number, parity, fun further => ?_⟩
  · obtain ⟨_, _, rfl⟩ := wants
    exact toNat_toUInt32 short
  · obtain ⟨_, _, rfl⟩ := wants
    rfl
  · exact seating.laid.optionalLink seating.consistent seat further named isNode

/-- The nodes of a row are one chain. -/
theorem Laid.exists_chain (laid : Laid declared rows pass.graph) (consistent : Consistent pass)
    (isDeclared : declared bnd = some desc) :
    ∃ ids, (rows bnd).map pass.graph.find = ids.map some ∧
      ∀ id ∈ ids, pass.graph.chain (pass.graph.headOf id) = ids := by
  have sound := consistent.pinned.sound
  cases row : rows bnd with
  | nil => exact ⟨[], rfl, by simp⟩
  | cons head rest =>
    have run := laid.isRun consistent isDeclared (by rw [row]; simp)
    have seat : Seats declared rows bnd desc 0 head := ⟨isDeclared, by rw [row]; rfl⟩
    obtain ⟨_, pin, _, isPin⟩ := laid.pinned _ _ _ _ seat
    obtain ⟨id, named⟩ : ∃ id, pass.graph.find head = some id := by
      cases known : pass.graph.find head with
      | some id => exact ⟨id, rfl⟩
      | none =>
        rw [pinAt_of_none known] at isPin
        cases isPin
    rw [row] at run
    obtain ⟨front, back, nodes, frontNames, backNames, live⟩ :=
      sound.nodes_of_run named (show IsRun _ ([] ++ head :: rest) from run)
    obtain rfl := map_eq_nil_iff.mp frontNames
    rw [nil_append] at nodes live
    refine ⟨id :: back, ?_, fun one mem => ?_⟩
    · rw [map_cons, map_cons, named, ← backNames, map_map]
      refine congrArg _ (map_congr_left fun one mem => ?_)
      exact sound.find_registerOf (live one (mem_cons_of_mem id mem))
    · obtain ⟨n, found⟩ := live one mem
      exact sound.chain_headOf found nodes mem

/-- What all descriptors of a program have come to once they are seeded. -/
theorem seated_of_seedAll {target : Target} {program : Program} {seeded : Pass}
    (closed : program.Closed) (yields : seedAll.Yields (.start target program) () seeded) :
    Seated program seeded := by
  obtain ⟨rows, seating⟩ := seedAll_lays closed yields
  have edits := (seedAll_yields closed yields).2.1
  have row : ∀ binding current, seeded.program.descriptors.get? binding = some current →
      ∃ descriptor, program.descriptors.get? binding = some descriptor ∧
        current = { descriptor with registers := rows binding } := by
    intro binding current found
    obtain ⟨descriptor, isDeclared⟩ := edits.exists_descriptor closed binding current found
    have found' := (seating.behind binding descriptor isDeclared (by simp)).2
    exact ⟨descriptor, isDeclared, Option.some_inj.mp (found.symm.trans found')⟩
  refine ⟨?_, ?_, ?_⟩
  · intro binding descriptor isDeclared
    exact ⟨rows binding, seating.behind binding descriptor isDeclared (by simp)⟩
  · intro binding binding' current current' offset offset' register found found' place place'
    obtain ⟨descriptor, isDeclared, rfl⟩ := row binding current found
    obtain ⟨descriptor', isDeclared', rfl⟩ := row binding' current' found'
    exact seating.laid.seats_unique seating.consistent ⟨isDeclared, place⟩ ⟨isDeclared', place'⟩
  · intro binding current found
    obtain ⟨descriptor, isDeclared, rfl⟩ := row binding current found
    obtain ⟨ids, names, chain⟩ := seating.laid.exists_chain seating.consistent isDeclared
    refine ⟨ids, names, fun offset id place => ⟨chain id (mem_of_getElem? place), ?_⟩⟩
    have named : ((rows binding).map seeded.graph.find)[offset]? = some (some id) := by
      rw [names, getElem?_map, place]
      rfl
    rw [getElem?_map, Option.map_eq_some_iff] at named
    obtain ⟨register, isRegister, named⟩ := named
    obtain ⟨node, isNode, _⟩ := seating.consistent.pinned.sound.live_of_find named
    obtain ⟨pin, placed⟩ := seating.placed isDeclared isRegister named isNode
    exact ⟨node, pin, isNode, placed⟩

/-! ### Rows that are contested -/

/-- An input at given numbers, an advisory output that begins with a register of the input, and
an array that begins with the other one. -/
def contestedRows : Blueprint where
  blocks := [("entry", [{ opcode := .mov, dests := [.temp 4], sources := [.temp 1] }])]
  descriptors := [.input .primary (some 5) [.temp 1, .temp 2],
    { Descriptor.output .output none [.temp 1, .temp 3, .temp 4] with
      parity := .even
      advisory := true },
    .array [.temp 2, .temp 5]]

/-- The program with these parts. -/
def rowsProgram : Program := contestedRows.assemble.leaves (.empty "main")

theorem closed_rowsProgram : rowsProgram.Closed := by
  have built : rowsProgram.Built fun _ => True := Blueprint.built_leaves rfl
  exact built.closed

theorem seated_rowsProgram : rowsProgram.Closed ∧ ∃ seeded,
      seedAll.Yields (.start Program.standardSetting.target rowsProgram) () seeded ∧
      Seated rowsProgram seeded := by
  obtain ⟨seeded, yields⟩ : ∃ seeded, seedAll.Yields
      (.start Program.standardSetting.target rowsProgram) () seeded := ⟨_, rfl, rfl⟩
  exact ⟨closed_rowsProgram, seeded, yields, seated_of_seedAll closed_rowsProgram yields⟩

/-- Where a register is not noted, two outputs may end up with it. -/
theorem shared_by_outputs : ∃ seeded first second,
      seedAll.Yields (.start Program.standardSetting.target
        (Pass.contestedOutputs.leaves (.empty "main"))) () seeded ∧
      seeded.program.descriptors.get? ⟨1⟩ = some first ∧
      seeded.program.descriptors.get? ⟨2⟩ = some second ∧
      first.registers[1]? = some (.temp 8) ∧ second.registers[0]? = some (.temp 8) :=
  ⟨_, _, _, ⟨rfl, rfl⟩, rfl, rfl, rfl, rfl⟩

end Seeding

end RegisterChains

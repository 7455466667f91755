/-
This file says what a seeded program leaves in its outputs. A member of an output ends up with
what the register it names held at the end of the original body, unless that register is
claimed by an input and by an array as well. Then the array has taken over the register in the
body, and the output gets what the register held at the start.
-/

import RegisterChains.Proofs.Allocation
import RegisterChains.Proofs.Seeding.Bodies

namespace RegisterChains

namespace Seeding

open ChainGraph List Step

variable {start prog : Program} {pass next : Pass} {bnd : BindingId} {r other : Register}
  {order : List BlockId} {desc cur : Descriptor}

/-! ### What one member comes to -/

/-- A member that is pinned already stays, one that another descriptor pins is separated, and
any other one is pinned. -/
theorem seedMember_cases {offset : Nat} {prev : Option Register} (consistent : Consistent pass)
    (found : pass.program.descriptors.get? bnd = some cur)
    (atPlace : cur.registers[offset]? = some r)
    (pre : ∀ first ∈ prev, pass.graph.pinAt first ≠ none)
    (ran : (seedMember bnd desc r offset prev).Yields pass other next) :
    r.isVirtual = true ∧ ((next = pass ∧ other = r) ∨
        (∃ owner owning after, pass.graph.pinAt r = some owner ∧
          pass.program.descriptors.get? owner.binding = some owning ∧
          ¬ (desc.kind = .array ∧ owning.kind = .array) ∧
          Separates pass.program r desc.kind other after ∧
          next.program = replaceMember bnd offset other after ∧ pass.graph.pinAt other = none ∧
          ∀ one pin, next.graph.pinAt one = some pin →
            pass.graph.pinAt one = some pin ∨ one = other ∧ pin.binding = bnd) ∨
        (other = r ∧ next.program = pass.program ∧ ∀ one pin, next.graph.pinAt one = some pin →
            pass.graph.pinAt one = some pin ∨ one = other ∧ pin.binding = bnd)) := by
  have noted : pass.program.Noted r := consistent.closed.members bnd cur found r
    (mem_of_getElem? atPlace)
  obtain ⟨virt, pin, wants, seeds⟩ := seeds_of_seedMember ran
  obtain ⟨_, _, placed⟩ := consistent.seeds noted virt pre seeds
  have own : ∀ one found, next.graph.pinAt one = some found →
      pass.graph.pinAt one = some found ∨ one = other ∧ found.binding = bnd :=
    fun one found isPin => (placed one found isPin).imp_right fun ⟨same, isOwn⟩ =>
      ⟨same, isOwn ▸ wants.binding_eq⟩
  refine ⟨virt, ?_⟩
  cases seeds with
  | settled => exact .inl ⟨rfl, rfl⟩
  | @separated owner _ separated _ isPin separates pins =>
    obtain ⟨owning, isOwning, apart⟩ := separate_owner separates
    obtain ⟨_, _, change, _, _⟩ :=
      separate_yields consistent.pinned.sound consistent.pinned.unmarked separates
    obtain ⟨_, samePins, unpinned⟩ := consistent.separate bnd offset noted virt separates
    obtain ⟨_, _, rfl⟩ := Pass.onGraph_yields.mp pins
    exact .inr (.inl ⟨owner, owning, separated.program, isPin, isOwning, apart, change, rfl,
      (samePins _).symm.trans unpinned, own⟩)
  | pinned _ pins =>
    obtain ⟨_, _, rfl⟩ := Pass.onGraph_yields.mp pins
    exact .inr (.inr ⟨rfl, rfl, own⟩)

/-! ### What holds along the way -/

/-- What every member of the descriptors of one kind keeps holds after such descriptors are
seeded. -/
def Lasting (kind : DescriptorKind) (motive : Pass → Prop) : Prop :=
  ∀ pass next bnd desc cur r one offset prev, Consistent pass →
    pass.program.descriptors.get? bnd = some cur → cur.kind = kind →
    desc.kind = kind → cur.registers[offset]? = some r →
    (∀ first ∈ prev, pass.graph.pinAt first ≠ none) →
    (seedMember bnd desc r offset prev).Yields pass one next →
    motive pass → motive next

variable {kind : DescriptorKind} {motive : Pass → Prop}

theorem Lasting.seedEach (lasting : Lasting kind motive) {bindings : List BindingId}
    (consistent : Consistent pass) (holds : motive pass)
    (kinds : ∀ pass, motive pass → ∀ bnd ∈ bindings, ∀ desc,
      pass.program.descriptors.get? bnd = some desc → desc.kind = kind)
    (ran : (seedEach bindings).Yields pass () next) : motive next := by
  induction bindings generalizing pass with
  | nil =>
    obtain ⟨_, rfl⟩ := yields_pure.mp ran
    exact holds
  | cons head rest ih =>
    obtain ⟨_, mid, seeds, ran⟩ := yields_bind.mp ran
    unfold seed at seeds
    rw [yields_get_bind] at seeds
    obtain ⟨desc, found, seeds⟩ := yields_lift_bind.mp seeds
    have found := Arena.get_eq_ok.mp found
    have isKind := kinds pass holds head mem_cons_self desc found
    obtain ⟨consistent', holds'⟩ := Consistent.seedMembers
      (fun consistent found same => lasting _ _ _ _ _ _ _ _ _ consistent found
        (same.trans isKind) isKind) consistent holds found drop_zero
      (fun _ no => by cases no) seeds
    exact ih consistent' holds'
      (fun pass holds bnd mem => kinds pass holds bnd (mem_cons_of_mem _ mem))
      ran

/-! ### Inputs and arrays -/

/-- Some descriptor of a kind names a register. -/
def Claims (prog : Program) (kind : DescriptorKind) (r : Register) : Prop :=
  ∃ bnd desc, prog.descriptors.get? bnd = some desc ∧ desc.kind = kind ∧ r ∈ desc.registers

/-- A register is pinned by an input. -/
def PinnedByInput (start : Program) (pass : Pass) (r : Register) : Prop :=
  ∃ pin owning, pass.graph.pinAt r = some pin ∧
    start.descriptors.get? pin.binding = some owning ∧ owning.kind = .input

/-- A member of an input or an array was replaced, because another input pins the register.
After an array, the body does not write the register any more. -/
structure Replaced (start : Program) (pass : Pass) (body : List Instruction)
    (kind : DescriptorKind) (reg mem : Register) : Prop where
  kept : kind ≠ .output
  fresh : ¬ start.Noted mem
  pinned : PinnedByInput start pass reg
  still : kind = .array → ∀ (arith : Arithmetic) contents,
    arith.run body contents reg = contents reg

/-- What holds of a program and its body while descriptors of some kinds have been seeded, but
no outputs. -/
structure Preparing (start : Program) (order : List BlockId) (orig : List Instruction)
    (seeded : DescriptorKind → Prop) (pass : Pass) : Prop where
  grown : start.nextTemp ≤ pass.program.nextTemp
  kinds : ∀ binding, (pass.program.descriptors.get? binding).map (·.kind) =
    (start.descriptors.get? binding).map (·.kind)
  owners : ∀ reg pin, start.Noted reg → pass.graph.pinAt reg = some pin →
    ∃ owning, start.descriptors.get? pin.binding = some owning ∧ seeded owning.kind ∧
      reg ∈ owning.registers
  body : ∃ code, pass.program.Shows order code ∧ (∀ reg, start.Noted reg →
      ¬ (Claims start .input reg ∧ Claims start .array reg) →
      ∀ (arith : Arithmetic) contents, arith.run (bodyOf order code) contents reg =
        arith.run orig contents reg) ∧
    Tracks start pass.program fun desc reg mem =>
      mem = reg ∨ Replaced start pass (bodyOf order code) desc.kind reg mem

variable {orig body : List Instruction} {seeded : DescriptorKind → Prop}
  {code : BlockId → List Line} {target : Target} {after : Program}

theorem exists_of_map_kind {pass : Program}
    (same : (pass.descriptors.get? bnd).map (·.kind) = (start.descriptors.get? bnd).map (·.kind))
    (found : pass.descriptors.get? bnd = some cur) :
    ∃ desc, start.descriptors.get? bnd = some desc ∧ desc.kind = cur.kind := by
  rw [found, Option.map_some] at same
  exact Option.map_eq_some_iff.mp same.symm

/-- Descriptors keep their kinds when a member is replaced. -/
theorem map_kind_replaceMember (offset : Nat) (one : BindingId) :
    ((replaceMember bnd offset other prog).descriptors.get? one).map (·.kind) =
      (prog.descriptors.get? one).map (·.kind) := by
  unfold replaceMember
  rw [Arena.get?_modify]
  split
  · rw [Option.map_map]
    rfl
  · rfl

theorem Replaced.advances {body' : List Instruction} {mem : Register}
    (replaced : Replaced start pass body kind r mem) (advances : Advances bnd pass next)
    (same : ∀ (arith : Arithmetic) cs, arith.run body' cs r = arith.run body cs r) :
    Replaced start next body' kind r mem where
  kept := replaced.kept
  fresh := replaced.fresh
  pinned := by
    obtain ⟨pin, owning, isPin, isOwning, isInput⟩ := replaced.pinned
    exact ⟨pin, owning, advances.pins r pin isPin, isOwning, isInput⟩
  still isArray arith cs := (same arith cs).trans (replaced.still isArray arith cs)

theorem Separates.fresh {claimant : DescriptorKind}
    (separates : Separates prog r claimant other after) (kept : claimant ≠ .output) :
    ¬ prog.Noted other := by
  cases separates with
  | taken | output => exact absurd rfl kept
  | input allocates | array _ allocates => exact (Program.noted_of_allocate allocates).2.1

section Members

variable {declared cur : Descriptor} {offset : Nat}

section

variable (preparing : Preparing start order orig seeded pass)

include preparing

/-- A member that was in use at the start is the one that the descriptor named. -/
theorem Preparing.mem_declared (isDeclared : start.descriptors.get? bnd = some declared)
    (found : pass.program.descriptors.get? bnd = some cur)
    (placed : cur.registers[offset]? = some r) (noted : start.Noted r) :
    r ∈ declared.registers := by
  obtain ⟨_, _, _, ms⟩ := preparing.body
  obtain ⟨length, each⟩ := ms bnd declared cur isDeclared found
  have lt : offset < declared.registers.length := by
    rw [← length]
    exact lt_of_getElem? placed
  obtain same | replaced := each offset _ r (getElem?_eq_getElem lt) placed
  · rw [same]
    exact getElem_mem lt
  · exact absurd noted replaced.fresh

/-- Pins that are new are pins of the member that is seeded. -/
theorem Preparing.owners_next (isDeclared : start.descriptors.get? bnd = some declared)
    (isSeeded : seeded declared.kind) (placed : ∀ one pin, next.graph.pinAt one = some pin →
      pass.graph.pinAt one = some pin ∨ one = other ∧ pin.binding = bnd)
    (isMember : start.Noted other → other ∈ declared.registers) (one : Register) (pin : Pin)
    (noted : start.Noted one) (isPin : next.graph.pinAt one = some pin) :
    ∃ owning, start.descriptors.get? pin.binding = some owning ∧ seeded owning.kind ∧
      one ∈ owning.registers := by
  rcases placed one pin isPin with old | ⟨rfl, rfl⟩
  · exact preparing.owners one pin noted old
  · exact ⟨declared, isDeclared, isSeeded, isMember noted⟩

theorem Preparing.pinned (advances : Advances bnd pass next) (prog : next.program = pass.program)
    (owners : ∀ one pin, start.Noted one → next.graph.pinAt one = some pin →
      ∃ owning, start.descriptors.get? pin.binding = some owning ∧ seeded owning.kind ∧
        one ∈ owning.registers) : Preparing start order orig seeded next := by
  obtain ⟨code, shown, runs, ms⟩ := preparing.body
  refine ⟨prog ▸ preparing.grown, prog ▸ preparing.kinds, owners, code, prog ▸ shown, runs,
    fun one declared cur isDeclared found => ?_⟩
  rw [prog] at found
  obtain ⟨length, each⟩ := ms one declared cur isDeclared found
  refine ⟨length, fun offset r mem isRegister isMember => ?_⟩
  exact (each offset r mem isRegister isMember).imp_right fun replaced =>
    replaced.advances advances fun _ _ => rfl

/-- The owner that stands in the way of a register is an input that names it. -/
theorem Preparing.owner
    (owned : ∀ owner, seeded owner → ¬ (kind = .array ∧ owner = .array) → owner = .input)
    (advances : Advances bnd pass next) (noted : start.Noted r) {owner : Pin}
    {owning : Descriptor} (isPin : pass.graph.pinAt r = some owner)
    (isOwning : pass.program.descriptors.get? owner.binding = some owning)
    (apart : ¬ (kind = .array ∧ owning.kind = .array)) :
    PinnedByInput start next r ∧ Claims start .input r := by
  obtain ⟨holder, isHolder, isSeeded, mem⟩ := preparing.owners r owner noted isPin
  obtain ⟨_, isHolder', sameKind⟩ := exists_of_map_kind (preparing.kinds owner.binding) isOwning
  cases isHolder.symm.trans isHolder'
  have isInput := owned holder.kind isSeeded (sameKind ▸ apart)
  exact ⟨⟨owner, holder, advances.pins r owner isPin, isHolder, isInput⟩,
    owner.binding, holder, isHolder, isInput, mem⟩

end

/-- What holds of the body still holds after a member was separated. -/
theorem Preparing.separated (closed : start.Closed) (kept : kind ≠ .output)
    (preparing : Preparing start order orig seeded pass) (consistent : Consistent pass)
    (advances : Advances bnd pass next) (isDeclared : start.descriptors.get? bnd = some declared)
    (isKind : declared.kind = kind) (found : pass.program.descriptors.get? bnd = some cur)
    (placed : cur.registers[offset]? = some r) (virt : r.isVirtual = true)
    (owned : start.Noted r → PinnedByInput start next r ∧ Claims start .input r)
    (separates : Separates pass.program r kind other after)
    (prog : next.program = replaceMember bnd offset other after)
    (owners : ∀ one pin, start.Noted one → next.graph.pinAt one = some pin →
      ∃ owning, start.descriptors.get? pin.binding = some owning ∧ seeded owning.kind ∧
        one ∈ owning.registers) : Preparing start order orig seeded next := by
  have mono : ∀ one, start.Noted one → pass.program.Noted one := fun one noted =>
    noted.mono preparing.grown
  obtain ⟨code, shown, runs, ms⟩ := preparing.body
  obtain ⟨code', shown', runs'⟩ := separates.runs consistent.closed
    (consistent.closed.members bnd cur found r (mem_of_getElem? placed)) virt
    shown
  obtain ⟨_, grown, descs⟩ := separates.noted consistent.closed
  have fresh : ¬ start.Noted other := fun noted => separates.fresh kept (mono other noted)
  -- What was replaced stays so: the body writes no register again that it stopped writing.
  have still : ∀ {kind' one mem}, start.Noted one →
      Replaced start pass (bodyOf order code) kind' one mem →
      Replaced start next (bodyOf order code') kind' one mem := by
    intro kind' one mem noted replaced
    refine ⟨replaced.kept, replaced.fresh, (replaced.advances advances fun _ _ => rfl).pinned,
      fun isArray arith cs => ?_⟩
    by_cases here : kind = .array ∧ one = r
    · rw [here.2]
      exact (runs' arith cs).2.2 here.1
    · rw [(runs' arith cs).1 one (mono one noted) fun is same => here ⟨is, same⟩]
      exact replaced.still isArray arith cs
  refine ⟨?_, fun one => ?_, owners, code', ?_, ?_, ?_⟩
  · rw [prog]
    exact UInt32.le_trans preparing.grown grown
  · rw [prog, map_kind_replaceMember, descs]
    exact preparing.kinds one
  · rw [prog]
    exact shown'.congr rfl rfl rfl
  · intro one noted free arith cs
    rw [(runs' arith cs).1 one (mono one noted) ?_]
    · exact runs one noted free arith cs
    · rintro isArray rfl
      exact free ⟨(owned noted).2, bnd, declared, isDeclared, isKind.trans isArray,
        preparing.mem_declared isDeclared found placed noted⟩
  · rw [prog]
    refine ms.replaceMember found placed descs (fun one desc _ wanted mem isDesc _ isWanted _ =>
      Or.imp_right (still (closed.members one desc isDesc wanted isWanted)))
      fun desc wanted isDesc isWanted member => .inr ?_
    have noted := closed.members bnd desc isDesc wanted isWanted
    cases isDeclared.symm.trans isDesc
    rcases member with rfl | replaced
    · exact ⟨isKind ▸ kept, fresh, (owned noted).1, fun isArray arith cs =>
        (runs' arith cs).2.2 (isKind ▸ isArray)⟩
    · exact { still noted replaced with fresh := fresh }

end Members

/-- Seeding an input or an array keeps what holds of the body. The pin that stands in the way
of a register has to be that of an input. -/
theorem lasting_preparing (closed : start.Closed) (kept : kind ≠ .output) (isSeeded : seeded kind)
    (owned : ∀ owner, seeded owner → ¬ (kind = .array ∧ owner = .array) → owner = .input) :
    Lasting kind (Preparing start order orig seeded) := by
  intro pass next bnd desc cur r one offset prev consistent found isKind isKind' atPlace pre
    ran preparing
  obtain ⟨declared, isDeclared, sameKind⟩ := exists_of_map_kind (preparing.kinds bnd) found
  have declaredKind : declared.kind = kind := sameKind.trans isKind
  obtain ⟨virt, cases⟩ := seedMember_cases consistent found atPlace pre ran
  have advances := (seedMember_yields consistent found atPlace pre ran).2.1
  rcases cases with ⟨rfl, _⟩ | ⟨owner, owning, after, isPin, isOwning, apart, separates, prog,
      _, placed⟩ | ⟨rfl, prog, placed⟩
  · exact preparing
  · rw [isKind'] at separates apart
    have fresh : ¬ start.Noted one := fun noted => separates.fresh kept (noted.mono preparing.grown)
    refine preparing.separated closed kept consistent advances isDeclared declaredKind found atPlace
      virt (fun noted => ?_) separates prog ?_
    · exact preparing.owner owned advances noted isPin isOwning apart
    · exact preparing.owners_next isDeclared (declaredKind ▸ isSeeded) placed
        fun noted => absurd noted fresh
  · exact preparing.pinned advances prog (preparing.owners_next isDeclared
      (declaredKind ▸ isSeeded) placed (preparing.mem_declared isDeclared found atPlace))

/-! ### Outputs -/

/-- The members of the outputs hold some values at the end of the body, given for the registers
that were named. -/
structure Delivering (start : Program) (order : List BlockId)
    (value : Arithmetic → Contents → Register → UInt32) (pass : Pass) : Prop where
  kinds : ∀ binding, (pass.program.descriptors.get? binding).map (·.kind) =
    (start.descriptors.get? binding).map (·.kind)
  body : ∃ code, pass.program.Shows order code ∧
    Tracks start pass.program fun desc reg mem => desc.kind = .output → ∀ arith contents,
      arith.run (bodyOf order code) contents mem = value arith contents reg

theorem lasting_delivering {v : Arithmetic → Contents → Register → UInt32} :
    Lasting .output (Delivering start order v) := by
  intro pass next bnd desc cur r other offset prev consistent found isKind isKind' placed pre ran
    delivering
  obtain ⟨code, shown, ms⟩ := delivering.body
  have noted := fun bnd desc found one isMem => consistent.closed.members bnd desc found one isMem
  obtain ⟨virt, cases⟩ := seedMember_cases consistent found placed pre ran
  rcases cases with ⟨rfl, _⟩ | ⟨_, _, after, _, _, _, separates, prog, _, _⟩ | ⟨_, prog, _⟩
  · exact delivering
  · rw [isKind'] at separates
    obtain ⟨code', shown', runs⟩ := separates.runs consistent.closed
      (noted bnd cur found r (mem_of_getElem? placed)) virt shown
    obtain ⟨_, _, descs⟩ := separates.noted consistent.closed
    refine ⟨fun one => ?_, code', ?_, ?_⟩
    · rw [prog, map_kind_replaceMember, descs]
      exact delivering.kinds one
    · rw [prog]
      exact shown'.congr rfl rfl rfl
    · rw [prog]
      refine ms.replaceMember found placed descs
        (fun one _ cur _ mem _ known _ isMember held isOutput
        arith cs => ?_) fun _ _ _ _ held isOutput arith cs =>
          ((runs arith cs).2.1 rfl).trans (held isOutput arith cs)
      rw [(runs arith cs).1 mem (noted one cur known mem isMember) (by simp)]
      exact held isOutput arith cs
  · exact ⟨prog ▸ delivering.kinds, code, prog ▸ shown, prog ▸ ms⟩

/-! ### Whole programs -/

theorem seedEach_append {a b : List BindingId} (ran : (seedEach (a ++ b)).Yields pass () next) :
    ∃ mid, (seedEach a).Yields pass () mid ∧ (seedEach b).Yields mid () next := by
  induction a generalizing pass with
  | nil => exact ⟨pass, yields_pure.mpr ⟨rfl, rfl⟩, ran⟩
  | cons bnd rest ih =>
    obtain ⟨_, seeded, seeds, later⟩ := yields_bind.mp ran
    obtain ⟨mid, pre, post⟩ := ih later
    exact ⟨mid, yields_bind.mpr ⟨(), seeded, seeds, pre⟩, post⟩

theorem mem_ofKind : bnd ∈ ofKind prog kind ↔
      ∃ desc, prog.descriptors.get? bnd = some desc ∧ desc.kind = kind := by
  unfold ofKind
  simp only [mem_map, mem_filter, decide_eq_true_eq, Prod.exists, Arena.mem_toList]
  constructor
  · rintro ⟨_, desc, ⟨found, isKind⟩, rfl⟩
    exact ⟨desc, found, isKind⟩
  · rintro ⟨desc, found, isKind⟩
    exact ⟨bnd, desc, ⟨found, isKind⟩, rfl⟩

theorem kind_of_mem_ofKind (same : ∀ bnd, (prog.descriptors.get? bnd).map (·.kind) =
      (start.descriptors.get? bnd).map (·.kind)) (mem : bnd ∈ ofKind start kind)
    (found : prog.descriptors.get? bnd = some desc) : desc.kind = kind := by
  obtain ⟨declared, isDeclared, isKind⟩ := mem_ofKind.mp mem
  obtain ⟨_, isDeclared', sameKind⟩ := exists_of_map_kind (same bnd) found
  cases isDeclared.symm.trans isDeclared'
  exact sameKind.symm.trans isKind

/-- Once inputs and arrays are seeded, the body does not write a register that both claim. -/
theorem Preparing.still (preparing : Preparing start order orig seeded pass)
    (settled : ∀ bnd desc, start.descriptors.get? bnd = some desc →
      desc.kind ≠ .output → Settled pass bnd) (input : Claims start .input r)
    (array : Claims start .array r) (isBody : pass.program.body = .ok body) (arith : Arithmetic)
    (cs : Contents) : arith.run body cs r = cs r := by
  obtain ⟨code, shown, _, ms⟩ := preparing.body
  obtain rfl : bodyOf order code = body := Except.ok.inj (shown.body_eq.symm.trans isBody)
  have settles : ∀ {kind}, kind ≠ .output → ∀ {bnd desc},
      start.descriptors.get? bnd = some desc → desc.kind = kind →
      r ∈ desc.registers →
      (∃ pin, pass.graph.pinAt r = some pin ∧ pin.binding = bnd) ∨
        ∃ mem, Replaced start pass (bodyOf order code) kind r mem := by
    intro kind kept bnd desc found isKind isMem
    obtain ⟨cur, isCurrent, pins⟩ := settled bnd desc found (isKind ▸ kept)
    obtain ⟨length, each⟩ := ms bnd desc cur found isCurrent
    obtain ⟨offset, bound, isRegister⟩ := getElem_of_mem isMem
    have placed : cur.registers[offset]? = some (cur.registers[offset]) :=
      getElem?_eq_getElem (by omega)
    rcases each offset r _ (List.getElem?_eq_some_iff.mpr ⟨bound, isRegister⟩) placed with
      same | replaced
    · obtain ⟨pin, ⟨_, _, rfl⟩, isPin⟩ := pins offset _ placed
      exact .inl ⟨_, same ▸ isPin, rfl⟩
    · exact .inr ⟨_, isKind ▸ replaced⟩
  obtain ⟨bnd, desc, found, isInput, isMem⟩ := input
  obtain ⟨bnd', descriptor', found', isArray, mem'⟩ := array
  have byInput : PinnedByInput start pass r := by
    rcases settles (by simp) found isInput isMem with ⟨pin, isPin, rfl⟩ | ⟨_, replaced⟩
    · exact ⟨pin, desc, isPin, found, isInput⟩
    · exact replaced.pinned
  rcases settles (by simp) found' isArray mem' with ⟨pin, isPin, rfl⟩ | ⟨_, replaced⟩
  · obtain ⟨pin', owning, isPin', isOwning, isInput'⟩ := byInput
    cases isPin.symm.trans isPin'
    cases found'.symm.trans isOwning
    rw [isArray] at isInput'
    cases isInput'
  · exact replaced.still rfl arith cs

theorem Preparing.weaken {more : DescriptorKind → Prop}
    (preparing : Preparing start order orig seeded pass)
    (weaker : ∀ kind, seeded kind → more kind) : Preparing start order orig more pass :=
  { preparing with
    owners := fun r pin noted isPin => by
      obtain ⟨owning, isOwning, isSeeded, mem⟩ := preparing.owners r pin noted isPin
      exact ⟨owning, isOwning, weaker _ isSeeded, mem⟩ }

theorem preparing_start (shown : start.Shows order code) :
    Preparing start order (bodyOf order code) seeded (.start target start) where
  grown := UInt32.le_refl _
  kinds _ := rfl
  owners _ _ _ isPin := by cases isPin
  body := by
    refine ⟨code, shown, fun _ _ _ _ _ => rfl, fun bnd desc cur found found' => ?_⟩
    cases found.symm.trans found'
    refine ⟨rfl, fun offset r mem isRegister isMember => .inl ?_⟩
    exact Option.some_inj.mp (isMember.symm.trans isRegister)

theorem Preparing.delivering (preparing : Preparing start order orig seeded pass)
    (isBody : pass.program.body = .ok body) :
    Delivering start order (fun arith cs r => arith.run body cs r) pass where
  kinds := preparing.kinds
  body := by
    obtain ⟨code, shown, _, ms⟩ := preparing.body
    obtain rfl : bodyOf order code = body := Except.ok.inj (shown.body_eq.symm.trans isBody)
    refine ⟨code, shown, fun bnd desc cur found found' => ?_⟩
    obtain ⟨length, each⟩ := ms bnd desc cur found found'
    refine ⟨length, fun offset r mem isRegister isMember isOutput arith cs => ?_⟩
    rcases each offset r mem isRegister isMember with same | replaced
    · rw [same]
    · exact absurd isOutput replaced.kept

/-- The pin in the way of an input is that of an input, as long as only inputs are seeded. -/
theorem lasting_inputs (closed : start.Closed) :
    Lasting .input (Preparing start order orig (· = .input)) :=
  lasting_preparing closed (by simp) rfl fun _ isInput _ => isInput

/-- The pin in the way of an array is that of an input, since arrays do not share registers. -/
theorem lasting_arrays (closed : start.Closed) :
    Lasting .array (Preparing start order orig (· ≠ .output)) := by
  refine lasting_preparing closed (by simp) (by simp) fun owner notOutput apart => ?_
  cases owner with
  | input => rfl
  | output => exact absurd rfl notOutput
  | array => exact absurd ⟨rfl, rfl⟩ apart

/-- Before the outputs are seeded, all inputs and arrays are. -/
theorem prepared_of_seedAll {seeded : Pass} (closed : prog.Closed) (shown : prog.Shows order code)
    (ran : seedAll.Yields (.start target prog) () seeded) : ∃ mid, Consistent mid ∧
      Preparing prog order (bodyOf order code) (· ≠ .output) mid ∧
      (∀ bnd desc, prog.descriptors.get? bnd = some desc → desc.kind ≠ .output → Settled mid bnd) ∧
      (seedEach (ofKind prog .output)).Yields mid () seeded := by
  unfold seedAll at ran
  rw [yields_get_bind] at ran
  obtain ⟨arrays, seedsFirst, seedsOutputs⟩ := seedEach_append ran
  obtain ⟨inputs, seedsInputs, seedsArrays⟩ := seedEach_append seedsFirst
  have consistent : Consistent (.start target prog) := consistent_start closed
  obtain ⟨consistent', _, _, _, settled⟩ := seedEach_yields consistent seedsInputs
  obtain ⟨consistent'', _, _, _, settled'⟩ := seedEach_yields consistent' seedsArrays
  have afterInputs := (lasting_inputs closed).seedEach consistent (preparing_start shown)
    (fun pass holds bnd mem desc => kind_of_mem_ofKind holds.kinds mem) seedsInputs
  have afterArrays := (lasting_arrays closed).seedEach consistent'
    (afterInputs.weaken fun _ isInput => by simp [isInput])
    (fun pass holds bnd mem desc => kind_of_mem_ofKind holds.kinds mem) seedsArrays
  refine ⟨arrays, consistent'', afterArrays, fun bnd desc found kept => ?_, seedsOutputs⟩
  cases isKind : desc.kind with
  | output => exact absurd isKind kept
  | input => exact settled' bnd (.inr (settled bnd (.inl (mem_ofKind.mpr ⟨_, found, isKind⟩))))
  | array => exact settled' bnd (.inl (mem_ofKind.mpr ⟨_, found, isKind⟩))

/-- At the end of the seeded body, the members of the outputs hold what the registers that they
named held at the end of the original body; but a register that an input and an array claim as
well is delivered as it was at the start. -/
theorem seeded_outputs {allowed : Instruction → Prop} {target : Target} {program : Program}
    {seeded : Pass} (built : program.Built allowed)
    (yields : seedAll.Yields (.start target program) () seeded) :
    ∃ original body, program.body = .ok original ∧ seeded.program.body = .ok body ∧
      ∀ binding descriptor, program.descriptors.get? binding = some descriptor →
        descriptor.kind = .output →
        ∃ current, seeded.program.descriptors.get? binding = some current ∧
          current.registers.length = descriptor.registers.length ∧
          ∀ (offset : Nat) register member, descriptor.registers[offset]? = some register →
            current.registers[offset]? = some member → ∀ (arithmetic : Arithmetic) contents,
              (Claims program .input register ∧ Claims program .array register →
                arithmetic.run body contents member = contents register) ∧
              (¬ (Claims program .input register ∧ Claims program .array register) →
                arithmetic.run body contents member =
                  arithmetic.run original contents register) := by
  obtain ⟨order, code, shown, _⟩ := built.shows
  have closed := built.closed
  obtain ⟨middle, consistent, preparing, settled, seeds⟩ := prepared_of_seedAll closed shown yields
  obtain ⟨code', shown', runs, _⟩ := preparing.body
  have delivering := Lasting.seedEach lasting_delivering consistent
    (preparing.delivering shown'.body_eq)
    (fun pass holds binding member descriptor => kind_of_mem_ofKind holds.kinds member) seeds
  obtain ⟨code'', shown'', members⟩ := delivering.body
  refine ⟨_, _, shown.body_eq, shown''.body_eq, fun binding descriptor found isOutput => ?_⟩
  obtain ⟨current, isCurrent, _⟩ := exists_of_map_kind (delivering.kinds binding).symm found
  obtain ⟨length, each⟩ := members binding descriptor current found isCurrent
  refine ⟨current, isCurrent, length, fun offset register member isRegister isMember arithmetic
    contents => ?_⟩
  rw [each offset register member isRegister isMember isOutput arithmetic contents]
  refine ⟨fun contested => ?_, fun free => ?_⟩
  · exact preparing.still settled contested.1 contested.2 shown'.body_eq arithmetic contents
  · exact runs register (closed.members binding descriptor found register
      (mem_of_getElem? isRegister)) free arithmetic contents

/-! ### A register with three claims -/

/-- One copy, into a register that is an input, an array and an output. -/
def threeClaims : Blueprint where
  blocks := [("entry", [{ opcode := .mov, dests := [.temp 1], sources := [.temp 2] }])]
  descriptors := [.input .primary none [.temp 1], .array [.temp 1],
    .output .output none [.temp 1, .temp 2]]

/-- The program with these parts. -/
def claimedProgram : Program := threeClaims.assemble.leaves (.empty "main")

theorem built_claimedProgram : claimedProgram.Built fun _ => True := Blueprint.built_leaves rfl

/-- The first member of the output gets what its register held at the start, and the second
one what its register held at the end. -/
theorem seeded_outputs_claimed : ∃ seeded original body current, seedAll.Yields
        (.start Program.standardSetting.target claimedProgram) () seeded ∧
      claimedProgram.body = .ok original ∧ seeded.program.body = .ok body ∧
      seeded.program.descriptors.get? ⟨2⟩ = some current ∧ current.registers.length = 2 ∧
      ∀ (arithmetic : Arithmetic) contents, (∀ member, current.registers[0]? = some member →
          arithmetic.run body contents member = contents (.temp 1)) ∧
        ∀ member, current.registers[1]? = some member →
          arithmetic.run body contents member = arithmetic.run original contents (.temp 2) := by
  obtain ⟨seeded, yields⟩ : ∃ seeded, seedAll.Yields
      (.start Program.standardSetting.target claimedProgram) () seeded := ⟨_, rfl, rfl⟩
  obtain ⟨original, body, isOriginal, isBody, outputs⟩ :=
    seeded_outputs built_claimedProgram yields
  obtain ⟨current, isCurrent, length, each⟩ := outputs ⟨2⟩ _ rfl rfl
  have contested : Claims claimedProgram .input (.temp 1) ∧
      Claims claimedProgram .array (.temp 1) :=
    ⟨⟨⟨0⟩, _, rfl, rfl, mem_cons_self⟩, ⟨1⟩, _, rfl, rfl, mem_cons_self⟩
  have free : ¬ Claims claimedProgram .array (.temp 2) := by
    rintro ⟨binding, descriptor, found, isArray, inside⟩
    have listed : ∀ entry ∈ claimedProgram.descriptors.toList, entry.2.kind = .array →
        .temp 2 ∉ entry.2.registers := by decide
    exact listed _ (Arena.mem_toList.mpr found) isArray inside
  refine ⟨seeded, original, body, current, yields, isOriginal, isBody, isCurrent, length,
    fun arithmetic contents => ⟨fun member isMember => ?_, fun member isMember => ?_⟩⟩
  · exact (each 0 _ member rfl isMember arithmetic contents).1 contested
  · exact (each 1 _ member rfl isMember arithmetic contents).2 fun both => free both.2

/-- The first output gets what its register held at the start, although the body writes it. -/
theorem stale_output_claimed : claimedProgram.Built (fun _ => True) ∧
      ∃ seeded original body current, seedAll.Yields
        (.start Program.standardSetting.target claimedProgram) () seeded ∧
      claimedProgram.body = .ok original ∧ seeded.program.body = .ok body ∧
      seeded.program.descriptors.get? ⟨2⟩ = some current ∧ current.kind = .output ∧
      ∃ (arithmetic : Arithmetic) (contents : Contents),
        (current.registers[0]?).map (arithmetic.run body contents) ≠
          some (arithmetic.run original contents (.temp 1)) := by
  refine ⟨built_claimedProgram, _, _, _, _, ⟨rfl, rfl⟩, rfl, rfl, rfl, rfl,
    ⟨id, fun _ _ => 0, fun _ _ => 0, fun _ _ => 0, fun _ _ => 0⟩,
    fun register => register.number, ?_⟩
  decide

end Seeding

end RegisterChains

/-
This file proves what a walk keeps where no descriptor pins a register, for its repairs to rely
on. Every register that the walk knows of is in use, so a fresh one differs from all of them. And
the temporaries have room for each run of each instruction, also of those that the walk puts there.
-/

import RegisterChains.Proofs.Repair.Origins
import RegisterChains.Proofs.Repair.Position

namespace RegisterChains

open List MachineSpec OperandRun Program Step

variable {run : OperandRun} {narrowed : Instruction} {dest r : Register}

/-! ### Instructions whose runs are short -/

namespace MachineSpec

variable {spec : MachineSpec} {inst ch : Instruction}

/-- The temporaries have room for every run of an instruction. -/
def Admits (spec : MachineSpec) (inst : Instruction) : Prop :=
  ∀ run ∈ runs inst, run.count ≤ spec.limits.temp

instance (spec : MachineSpec) (inst : Instruction) : Decidable (spec.Admits inst) :=
  inferInstanceAs (Decidable (∀ run ∈ runs inst, run.count ≤ spec.limits.temp))

theorem admits_move (spec : MachineSpec) (dest source : Register) :
    spec.Admits (.move dest source) := by
  intro run mem
  rw [runs_move] at mem
  cases mem

theorem Admits.congr (admits : spec.Admits inst) (same : runs ch = runs inst) : spec.Admits ch := by
  intro run mem
  rw [same] at mem
  exact admits run mem

theorem admits_copyInstruction {pairs : List (Register × Register)} {copy : Instruction}
    (room : pairs.length ≤ spec.limits.temp) (isCopy : Walk.copyInstruction pairs = .ok copy) :
    spec.Admits copy := by
  rcases Walk.copyInstruction_cases isCopy with ⟨v, holder, _, rfl⟩ | rfl
  · exact admits_move spec holder v
  · intro run mem
    rw [runs_pack, length_map] at mem
    split at mem
    · rw [mem_singleton.mp mem]
      exact room
    · cases mem

/-- A sample that loses destinations has no longer runs. -/
theorem Admits.narrow (admits : spec.Admits inst)
    (relaxes : relax inst run = .ok (some (.narrow narrowed))) : spec.Admits narrowed := by
  obtain ⟨⟨isSample, _⟩, _, opcode, sources, dests⟩ := relax_eq_narrow relaxes
  have fewer := dests.length_le
  unfold Admits runs at admits ⊢
  rw [opcode, isSample, sources]
  rw [isSample] at admits
  simp only [mem_append] at admits ⊢
  rintro run (written | read)
  · split at written
    · next some =>
      have room := admits (.dests 0 inst.dests.length .even) (.inl (by
        rw [if_pos (Nat.lt_of_lt_of_le some fewer)]
        exact mem_singleton_self _))
      rw [mem_singleton.mp written]
      exact fewer.trans room
    · cases written
  · exact admits run (.inr read)

end MachineSpec

namespace Program

variable {spec : MachineSpec} {prog after : Program} {inst : Instruction} {k : InstructionId}
  {sequence : List Instruction}

/-- An instruction names registers in use, and the temporaries have room for its runs. -/
structure Suits (prog : Program) (spec : MachineSpec) (inst : Instruction) : Prop where
  noted : ∀ reg ∈ inst.dests ++ inst.sources, prog.Noted reg
  admitted : spec.Admits inst

theorem Suits.mono (suits : prog.Suits spec inst) (grown : prog.nextTemp ≤ after.nextTemp) :
    after.Suits spec inst :=
  ⟨fun r mem => (suits.noted r mem).mono grown, suits.admitted⟩

theorem suits_move {source : Register} (isDest : prog.Noted dest) (isSource : prog.Noted source) :
    prog.Suits spec (.move dest source) := by
  refine ⟨fun r mem => ?_, admits_move spec dest source⟩
  rcases mem_append.mp mem with inside | inside
  · rwa [mem_singleton.mp inside]
  · rwa [mem_singleton.mp inside]

theorem Suits.narrow (suits : prog.Suits spec inst)
    (relaxes : relax inst run = .ok (some (.narrow narrowed))) : prog.Suits spec narrowed := by
  obtain ⟨_, _, _, sources, dests⟩ := relax_eq_narrow relaxes
  refine ⟨fun r mem => suits.noted r ?_, suits.admitted.narrow relaxes⟩
  rw [sources] at mem
  exact append_subset.mpr ⟨fun _ inside => mem_append_left _ (dests.subset inside),
    subset_append_right _ _⟩ mem

theorem Suits.expand (suits : prog.Suits spec inst)
    (relaxes : relax inst run = .ok (some (.expand sequence))) :
    ∀ move ∈ sequence, prog.Suits spec move := by
  obtain ⟨_, _, rfl⟩ := relax_eq_expand relaxes
  intro move mem
  rw [← map_uncurry_zip_eq_zipWith] at mem
  obtain ⟨⟨dest, source⟩, inside, rfl⟩ := mem_map.mp mem
  obtain ⟨isDest, isSource⟩ := of_mem_zip inside
  exact suits_move (suits.noted dest (mem_append_left _ isDest))
    (suits.noted source (mem_append_right _ isSource))

/-- Every instruction of a program does so. -/
def Suited (prog : Program) (spec : MachineSpec) : Prop :=
  ∀ k inst, prog.instructions.get? k = some inst → prog.Suits spec inst

namespace Suited

section

variable (suited : prog.Suited spec) {keys : List InstructionId}

include suited

theorem mono (instructions : after.instructions = prog.instructions)
    (grown : prog.nextTemp ≤ after.nextTemp) : after.Suited spec := by
  intro k inst found
  rw [instructions] at found
  exact (suited k inst found).mono grown

theorem setInstruction (suits : prog.Suits spec inst) :
    (Program.setInstruction k inst prog).Suited spec := by
  intro one stored isFound
  rw [Program.setInstruction, Arena.get?_set] at isFound
  split at isFound
  · obtain ⟨_, _, rfl⟩ := Option.map_eq_some_iff.mp isFound
    exact suits.mono (UInt32.le_refl _)
  · exact (suited one stored isFound).mono (UInt32.le_refl _)

theorem adds {placing : Layout → Except Breach Layout} (suits : prog.Suits spec inst)
    (adds : prog.Adds after inst k placing) : after.Suited spec := by
  obtain ⟨instructions, layout, inserted, _, rfl⟩ := adds
  obtain ⟨_, _, entries⟩ := Arena.insert_eq_ok inserted
  intro one stored isFound
  rw [entries] at isFound
  split at isFound
  · cases isFound
    exact suits.mono (UInt32.le_refl _)
  · exact (suited one stored isFound).mono (UInt32.le_refl _)

theorem exportRegister (r : Register) : (prog.exportRegister r).Suited spec := by
  unfold Program.exportRegister
  split
  · exact suited
  · exact suited.mono rfl (UInt32.le_refl _)

theorem insertAllBefore (suits : ∀ inst ∈ sequence, prog.Suits spec inst)
    (ran : (insertAllBefore k sequence).Yields prog keys after) : after.Suited spec := by
  induction sequence generalizing prog keys with
  | nil =>
    obtain ⟨_, rfl⟩ := yields_pure.mp ran
    exact suited
  | cons inst rest ih =>
    obtain ⟨_, _, inserts, ranRest⟩ := yields_bind.mp ran
    obtain ⟨_, insertsRest, _⟩ := yields_bind_pure.mp ranRest
    have adds := insertBefore_yields inserts
    exact ih (suited.adds (suits inst mem_cons_self) adds)
      (fun one later => (suits one (mem_cons_of_mem _ later)).mono adds.keeps.nextTemp)
      insertsRest

theorem replace (suits : ∀ inst ∈ sequence, prog.Suits spec inst)
    (ran : (replace k sequence).Yields prog keys after) : after.Suited spec := by
  obtain ⟨_, _, inserts, rest⟩ := yields_bind.mp ran
  obtain ⟨_, _, _, ended⟩ := yields_bind_of changeLayout_yields rest
  obtain ⟨_, rfl⟩ := yields_pure.mp ended
  exact (suited.insertAllBefore suits inserts).mono rfl (UInt32.le_refl _)

end

end Suited

/-- A register is in use, and can be a node: there is room for one that is alone. -/
def Hosts (prog : Program) (spec : MachineSpec) (r : Register) : Prop :=
  prog.Noted r ∧ 1 ≤ spec.limits.temp

theorem Hosts.mono (hosts : prog.Hosts spec r) (grown : prog.nextTemp ≤ after.nextTemp) :
    after.Hosts spec r :=
  ⟨hosts.1.mono grown, hosts.2⟩

/-- Both registers of a copy are in use, and the one that holds the value can be a node. -/
def InUse (prog : Program) (spec : MachineSpec) (pair : Register × Register) : Prop :=
  prog.Noted pair.1 ∧ prog.Hosts spec pair.2

theorem InUse.mono {pair : Register × Register} (inUse : prog.InUse spec pair)
    (grown : prog.nextTemp ≤ after.nextTemp) : after.InUse spec pair :=
  ⟨inUse.1.mono grown, inUse.2.mono grown⟩

end Program

/-! ### What a walk relies on -/

/-- Nothing is pinned, chains fit the temporaries, and all registers are in use. -/
structure Pass.Ready (spec : MachineSpec) (pass : Pass) : Prop where
  limits : pass.graph.limits = spec.limits
  unpinned : ∀ reg, pass.graph.pinAt reg = none
  bounded : 1 ≤ spec.limits.temp → pass.graph.Bounded
  suited : pass.program.Suited spec
  nodes : ∀ reg, pass.graph.find reg ≠ none → pass.program.Hosts spec reg
  hoisted : ∀ pair ∈ pass.hoisted.pairs, pass.program.Noted pair.2

namespace Walk

variable {spec : MachineSpec} {options : Options} {level : Option Level} {place : UInt32}
  {k : InstructionId} {run : OperandRun} {walk after : Walk} {inst ch : Instruction}
  {ops assigned regs : List Register} {prog : Program} {pairs : List (Register × Register)}
  {next : Option InstructionId} {op : Register}

/-- So are the registers of the copies that are known or to come. -/
structure Ready (spec : MachineSpec) (walk : Walk) : Prop where
  pass : walk.toPass.Ready spec
  sound : walk.tracking.Sound
  knows : ∀ value dest owned, walk.tracking.Knows value dest owned → walk.program.Noted value
  deferred : ∀ copy ∈ walk.deferred, walk.program.InUse spec copy.pair

namespace Ready

variable {owned : Bool} {v : Register}

section

variable (ready : walk.Ready spec)

include ready

theorem counts (stats : Stats) : Ready spec { walk with stats := stats } where
  pass := ⟨ready.pass.limits, ready.pass.unpinned, ready.pass.bounded, ready.pass.suited,
    ready.pass.nodes, ready.pass.hoisted⟩
  sound := ready.sound
  knows := ready.knows
  deferred := ready.deferred

/-- A change after which all that is new is in use. -/
theorem adapt (extends' : walk.Extends after) (suited : after.program.Suited spec)
    (introduces : walk.graph.Introduces after.graph regs)
    (hosts : ∀ r ∈ regs, after.program.Hosts spec r)
    (hoisted : ∀ pair ∈ after.hoisted.pairs, pair ∈ walk.hoisted.pairs ∨ after.program.Noted pair.2)
    (knows : ∀ v dest owned, after.tracking.Knows v dest owned →
      walk.tracking.Knows v dest owned ∨ after.program.Noted v)
    (deferred : ∀ copy ∈ after.deferred, copy ∈ walk.deferred) : after.Ready spec := by
  obtain ⟨refines, sound, keeps⟩ := extends'
  refine ⟨⟨refines.limits.trans ready.pass.limits, fun r => ?_, fun room => ?_, suited,
    fun r known => ?_, fun pair mem => ?_⟩, sound, fun v dest owned known => ?_,
    fun copy waiting => ?_⟩
  · exact (refines.pin r).trans (ready.pass.unpinned r)
  · exact refines.bounded (ready.pass.bounded room)
  · rcases introduces r known with old | new
    · exact (ready.pass.nodes r old).mono keeps.nextTemp
    · exact hosts r new
  · rcases hoisted pair mem with old | new
    · exact (ready.pass.hoisted pair old).mono keeps.nextTemp
    · exact new
  · rcases knows v dest owned known with old | new
    · exact (ready.knows v dest owned old).mono keeps.nextTemp
    · exact new
  · exact (ready.deferred copy (deferred copy waiting)).mono keeps.nextTemp

/-- A change that leaves the known copies alone. -/
theorem becomes {g : ChainGraph} (becomes : walk.Becomes prog g after)
    (keeps : walk.program.Keeps prog) (evolves : walk.graph.Evolves g) (suited : prog.Suited spec)
    (introduces : walk.graph.Introduces g regs) (hosts : ∀ r ∈ regs, prog.Hosts spec r) :
    after.Ready spec := by
  have gains := Gains.of_becomes becomes
  refine ready.adapt (becomes.extends ready.sound keeps evolves) (becomes.program ▸ suited)
    (becomes.graph ▸ introduces) (becomes.program ▸ hosts) (fun pair mem => ?_)
    (fun v dest owned known => ?_) gains.deferred
  · rcases gains.hoisted pair mem with old | impossible
    · exact .inl old
    · cases impossible
  · rcases gains.knows v dest owned known with ⟨old, _⟩ | ⟨_, impossible⟩ | ⟨_, impossible⟩
    · exact .inl old
    · cases impossible
    · cases impossible

/-- A change of the program alone. -/
theorem reprogram (becomes : walk.Becomes prog walk.graph after) (keeps : walk.program.Keeps prog)
    (suited : prog.Suited spec) : after.Ready spec :=
  ready.becomes becomes keeps ready.sound.graph.evolves_refl suited (.of_find_eq fun _ => rfl)
    (forall_mem_nil _)

/-- Copies of registers in use are learned. -/
theorem learns {written : List Register} (learns : Learns walk written pairs owned after)
    (inUse : ∀ pair ∈ pairs, walk.program.InUse spec pair) : after.Ready spec := by
  refine ready.adapt learns.extends (learns.program ▸ ready.pass.suited) learns.introduces
    (fun r inside => ?_) (fun pair mem => .inl (learns.hoisted pair mem))
    (fun v dest isOwned known => ?_) learns.deferred
  · obtain ⟨pair, mem, rfl⟩ := mem_map.mp inside
    exact learns.program ▸ (inUse pair mem).2
  · rcases learns.knows v dest isOwned known with ⟨old, _⟩ | ⟨_, new⟩
    · exact .inl old
    · exact .inr (learns.program ▸ (inUse _ new).1)

end

/-! ### Copies in front of an instruction -/

theorem hoistCopy {holder : Register} (ready : walk.Ready spec)
    (inUse : walk.program.InUse spec (v, holder))
    (ran : (hoistCopy place v holder).Yields walk () after) : after.Ready spec := by
  obtain ⟨isValue, isHolder⟩ := inUse
  obtain ⟨_, _, prog, _, _, rfl, _, pushes, _, told⟩ := hoistCopy_yields ready.sound ran
  have adds := push_yields pushes
  have suited : (prog.exportRegister holder).Suited spec :=
    (ready.pass.suited.adds (suits_move isHolder.1 isValue) adds).exportRegister holder
  have grown : walk.program.nextTemp ≤ after.program.nextTemp :=
    (hoistCopy_extends ready.sound ran).keeps.nextTemp
  refine ready.adapt (hoistCopy_extends ready.sound ran) (told.program ▸ suited)
    told.introduces (fun r inside => ?_) (fun pair mem => ?_)
    (fun one dest owned known => ?_) told.deferred
  · rw [mem_singleton.mp inside]
    exact isHolder.mono grown
  · rcases Assoc.mem_pairs_insert (told.hoisted pair mem) with rfl | old
    · exact .inr (isHolder.1.mono grown)
    · exact .inl old
  · rcases told.knows one dest owned known with ⟨old, _⟩ | ⟨_, new⟩
    · exact .inl old
    · cases mem_singleton.mp new
      exact .inr (isValue.mono grown)

section

variable (ready : walk.Ready spec) (inUse : ∀ pair ∈ pairs, walk.program.InUse spec pair)
  (room : pairs.length ≤ spec.limits.temp)

include ready inUse room

theorem copyInFront (ran : (copyInFront place k pairs).Yields walk () after) :
    after.Ready spec := by
  obtain ⟨made, _, prog, stats, _, rfl, isMade, inserts, _, told⟩ :=
    copyInFront_yields ready.sound ran
  have adds := insertBefore_yields inserts
  have suits : walk.program.Suits spec made := by
    obtain ⟨dests, sources⟩ := copyInstruction_eq_ok isMade
    refine ⟨fun r mem => ?_, admits_copyInstruction room isMade⟩
    rw [dests, sources] at mem
    rcases mem_append.mp mem with inside | inside
    · obtain ⟨pair, isPair, rfl⟩ := mem_map.mp inside
      exact (inUse pair isPair).2.1
    · obtain ⟨pair, isPair, rfl⟩ := mem_map.mp inside
      exact (inUse pair isPair).1
  have inserted : Ready spec { walk with program := prog, stats := stats } :=
    ready.reprogram ⟨rfl, rfl, rfl, rfl, rfl⟩ adds.keeps (ready.pass.suited.adds suits adds)
  exact inserted.learns told fun pair mem => (inUse pair mem).mono adds.keeps.nextTemp

theorem copyIn {batches : List Batch} (ran : (copyIn place k pairs batches).Yields walk () after) :
    after.Ready spec := by
  induction batches generalizing walk with
  | nil =>
    obtain ⟨_, rfl⟩ := yields_pure.mp ran
    exact ready
  | cons batch rest ih =>
    have later : ∀ {mid : Walk}, walk.Extends mid → ∀ pair ∈ pairs, mid.program.InUse spec pair :=
      fun extends' pair mem => (inUse pair mem).mono extends'.keeps.nextTemp
    cases batch with
    | hoist i =>
      rw [Walk.copyIn] at ran
      split at ran
      · next v holder found =>
        obtain ⟨_, mid, hoists, ranRest⟩ := yields_bind.mp ran
        exact ih (ready.hoistCopy (inUse _ (mem_of_getElem? found)) hoists)
          (later (hoistCopy_extends ready.sound hoists)) ranRest
      · exact absurd ran not_yields_breach
    | inPlace start width =>
      obtain ⟨_, mid, copies, ranRest⟩ := yields_bind.mp ran
      have part : ((pairs.drop start).take width).Sublist pairs :=
        (take_sublist _ _).trans (drop_sublist _ _)
      exact ih (ready.copyInFront (fun pair mem => inUse pair (part.subset mem))
          (part.length_le.trans room) copies)
        (later (copyInFront_extends ready.sound copies)) ranRest

end

/-! ### Copies behind an instruction -/

section

variable (ready : walk.Ready spec)

include ready

theorem copyOut {ms : List (Register × Register × Choice)} {copies : List PendingCopy}
    (inUse : ∀ mem ∈ ms, walk.program.InUse spec (mem.1, mem.2.1))
    (ran : (copyOut k ms).Yields walk copies after) :
    after.Ready spec ∧ ∀ copy ∈ copies, after.program.InUse spec copy.pair := by
  induction ms generalizing walk k copies with
  | nil =>
    obtain ⟨rfl, rfl⟩ := yields_pure.mp ran
    exact ⟨ready, forall_mem_nil _⟩
  | cons mem rest ih =>
    obtain ⟨v, holder, choice⟩ := mem
    have own : walk.program.InUse spec (v, holder) := inUse _ mem_cons_self
    have others := fun mem later => inUse mem (mem_cons_of_mem _ later)
    rw [Walk.copyOut] at ran
    split at ran
    · exact ih ready others ran
    · obtain ⟨copy, prog, inserted, counting⟩ := yields_bind_of onProgram_yields ran
      have rest' := yields_count_bind.mp counting
      obtain ⟨_, copiesRest, rfl⟩ := yields_bind_pure.mp rest'
      have adds := insertAfter_yields inserted
      have grown := adds.keeps.nextTemp
      have readied' : Ready spec { walk with
          program := prog
          stats := { walk.stats with copies := walk.stats.copies + 1 } } :=
        ready.reprogram ⟨rfl, rfl, rfl, rfl, rfl⟩ adds.keeps
          (ready.pass.suited.adds (suits_move own.1 own.2.1) adds)
      obtain ⟨ready', post⟩ :=
        ih readied' (fun mem later => (others mem later).mono grown) copiesRest
      refine ⟨ready', fun one inside => ?_⟩
      rcases mem_cons.mp inside with rfl | later
      · exact (own.mono grown).mono (copyOut_becomes copiesRest).2.nextTemp
      · exact post one later

/-! ### The registers of a run -/

theorem hosts_of_knows (known : walk.tracking.Knows v dest owned) :
    walk.program.Hosts spec dest := by
  obtain ⟨id, record, found, _, rfl, _⟩ := known
  refine ready.pass.nodes record.dest fun missing => ?_
  cases missing.symm.trans (ready.sound.marked id record found).1

theorem noted_of_equivalents {other : Register} {others : List Register}
    (noted : walk.program.Noted op) (same : walk.equivalents op = .ok others)
    (mem : other ∈ others) : walk.program.Noted other := by
  obtain ⟨v, isValue, holds⟩ := of_equivalents ready.sound same mem
  have inUse : walk.program.Noted v := by
    rcases isValue with rfl | ⟨_, known⟩
    · exact noted
    · exact ready.knows _ _ _ known
  rcases holds with ⟨rfl, _⟩ | ⟨_, known⟩ | hoisted
  · exact inUse
  · exact (ready.hosts_of_knows known).1
  · exact ready.pass.hoisted _ (Assoc.mem_of_get? hoisted)

/-- Whatever stands in for an operand is in use. -/
theorem noted_of_standsIn {next : UInt32} {choice : Choice} (noted : walk.program.Noted op)
    (later : walk.program.nextTemp ≤ prog.nextTemp) (grown : next ≤ prog.nextTemp)
    (standsIn : StandsIn walk run inst next op choice r) : prog.Noted r := by
  cases standsIn with
  | keep => exact noted.mono later
  | reuse _ same mem => exact (ready.noted_of_equivalents noted same mem).mono later
  | recycle vacant =>
    rcases vacant with handed | ⟨⟨_, known⟩, _⟩
    · exact handed.noted grown
    · exact (ready.hosts_of_knows known).1.mono later
  | fresh handed => exact handed.noted grown

end

end Ready

theorem noted_of_constantsFrom {start : UInt32} {count : Nat} {constants : List Register}
    (listed : constantsFrom start count = .ok constants) {constant : Register}
    (mem : constant ∈ constants) : prog.Noted constant := by
  unfold constantsFrom at listed
  split at listed
  · cases listed
    obtain ⟨i, _, rfl⟩ := mem_map.mp mem
    exact nofun
  · cases listed

section

variable (ready : walk.Ready spec) (isInst : walk.program.instruction k = .ok inst)
  (found : run.operands inst = .ok ops) (room : run.count ≤ spec.limits.temp)

include ready isInst

theorem Ready.suits : walk.program.Suits spec inst :=
  ready.pass.suited k inst (Arena.get_eq_ok.mp isInst)

include found room

/-- The operands of a run can be nodes. -/
theorem Ready.hosts_of_operands (mem : op ∈ ops) : walk.program.Hosts spec op := by
  obtain ⟨_, _, cuts⟩ := operands_eq_ok.mp found
  have some := length_pos_of_mem mem
  refine ⟨(ready.suits isInst).noted op (mem_of_operands found mem), ?_⟩
  rw [cuts.count] at some
  omega

section

variable {plan : Plan} {g : ChainGraph} {next : UInt32}
  (planned : Planned ⟨spec.target, options, level⟩ place run walk inst ops plan)
  (carried : Carried k run walk inst ops plan assigned ch next g)

include planned carried

theorem Ready.inUse_of_carried (later : walk.program.nextTemp ≤ prog.nextTemp)
    (grown : next ≤ prog.nextTemp) : ∀ pair ∈ ops.zip assigned, prog.InUse spec pair := by
  rintro ⟨op, r⟩ mem
  obtain ⟨i, isPair⟩ := mem_iff_getElem?.mp mem
  obtain ⟨isOperand, isRegister⟩ := getElem?_zip_eq_some.mp isPair
  have hosts := ready.hosts_of_operands isInst found room (mem_of_getElem? isOperand)
  obtain ⟨choice, one, _, isOther, standsIn⟩ := carried.standsIn planned isOperand
  cases isOther.symm.trans isRegister
  exact ⟨hosts.1.mono later, ready.noted_of_standsIn hosts.1 later grown standsIn, hosts.2⟩

/-- A run is settled by a plan. -/
theorem Ready.of_carried (becomes : walk.Becomes
      (Program.setInstruction k ch { walk.program with nextTemp := next }) g after) :
    after.Ready spec ∧ ∀ pair ∈ ops.zip assigned, after.program.InUse spec pair := by
  have inUse : ∀ pair ∈ ops.zip assigned,
      Program.InUse { walk.program with nextTemp := next } spec pair :=
    ready.inUse_of_carried isInst found room planned carried carried.later (UInt32.le_refl _)
  have hosts : ∀ r ∈ assigned, Program.Hosts { walk.program with nextTemp := next } spec r := by
    intro r mem
    obtain ⟨i, isRegister⟩ := mem_iff_getElem?.mp mem
    have inside : i < ops.length := by
      rw [← carried.length found]
      exact lt_of_getElem? isRegister
    exact (inUse (ops[i], r) (mem_of_getElem?
      (getElem?_zip_eq_some.mpr ⟨getElem?_eq_getElem inside, isRegister⟩))).2
  have suits := ready.suits isInst
  have suits' : Program.Suits { walk.program with nextTemp := next } spec ch := by
    refine ⟨fun r mem => ?_,
      suits.admitted.congr (differs_of_replace found carried.replaced).runs⟩
    rcases mem_of_replace found carried.replaced mem with old | new
    · exact (suits.noted r old).mono carried.later
    · exact (hosts r new).1
  have suited : Program.Suited { walk.program with nextTemp := next } spec :=
    ready.pass.suited.mono rfl carried.later
  obtain ⟨_, _, commits⟩ := carried.commits
  refine ⟨ready.becomes becomes carried.keeps
    (ready.sound.graph.commit_yields commits).1 (suited.setInstruction suits')
    (ready.sound.graph.introduces_commit commits) hosts, ?_⟩
  rw [becomes.program]
  exact inUse

end

/-! ### One instruction -/

/-- Handling a run leaves a walk of this kind, and so are the copies behind the instruction. -/
theorem Ready.handled {fix : RunFix}
    (handled : Handled ⟨spec.target, options, level⟩ place k run walk inst ops fix after) :
    after.Ready spec ∧ ∀ copies, fix = .copiedOut copies →
        ∀ copy ∈ copies, after.program.InUse spec copy.pair := by
  have hosts : ∀ op ∈ ops, walk.program.Hosts spec op :=
    fun _ mem => ready.hosts_of_operands isInst found room mem
  have suits := ready.suits isInst
  cases handled with
  | fits _ commits becomes =>
    refine ⟨ready.becomes becomes (.refl _) (ready.sound.graph.commit_yields commits).1
      ready.pass.suited (ready.sound.graph.introduces_commit commits) hosts, nofun⟩
  | @reordered _ ch _ _ reordered becomes =>
    obtain ⟨_, _, commits⟩ := reordered.commits
    obtain ⟨_, _, rfl, _, reorders⟩ := reordered.order
    have suits' : walk.program.Suits spec ch :=
      ⟨fun r mem => suits.noted r (mem_of_reorder reorders mem),
        suits.admitted.congr (differs_of_reorder found reorders).runs⟩
    refine ⟨ready.becomes becomes (keeps_setInstruction ..)
      (ready.sound.graph.commit_yields commits).1 (ready.pass.suited.setInstruction suits')
      (ready.sound.graph.introduces_commit commits) fun r mem => ?_, nofun⟩
    obtain ⟨_, _, isOperand⟩ := mem_filterMap.mp mem
    exact (hosts _ (mem_of_getElem? isOperand)).mono (UInt32.le_refl _)
  | @substituted _ ch _ substituted becomes =>
    have suits' : walk.program.Suits spec ch := by
      refine ⟨fun r mem => ?_, suits.admitted.congr
        (differs_of_replace found substituted.replaced).runs⟩
      rcases mem_of_replace found substituted.replaced mem with old | new
      · exact suits.noted r old
      · obtain ⟨_, _, _, _, isConstants⟩ := substituted.values
        exact noted_of_constantsFrom isConstants new
    exact ⟨ready.reprogram becomes (keeps_setInstruction ..)
      (ready.pass.suited.setInstruction suits'), nofun⟩
  | relaxed relaxed becomes =>
    cases relaxed with
    | narrowed relaxes =>
      exact ⟨ready.reprogram becomes (keeps_setInstruction ..)
        (ready.pass.suited.setInstruction (suits.narrow relaxes)), nofun⟩
    | expanded relaxes _ replaces =>
      exact ⟨ready.reprogram becomes (keeps_replace replaces)
        (ready.pass.suited.replace (suits.expand relaxes) replaces), nofun⟩
  | copiedIn _ planned carried becomes copies =>
    obtain ⟨readied', inUse⟩ := ready.of_carried isInst found room planned carried becomes
    refine ⟨readied'.copyIn inUse ?_ copies, nofun⟩
    obtain ⟨_, _, cuts⟩ := operands_eq_ok.mp found
    rw [length_zip, carried.length found, Nat.min_self, cuts.count]
    exact room
  | @copiedOut plan assigned _ _ _ _ _ _ _ planned carried becomes copies =>
    obtain ⟨readied', inUse⟩ := ready.of_carried isInst found room planned carried becomes
    have ms : ∀ mem ∈ ops.zip (assigned.zip plan.choices), (mem.1, mem.2.1) ∈ ops.zip assigned := by
      intro mem inside
      obtain ⟨i, isMember⟩ := mem_iff_getElem?.mp inside
      obtain ⟨isOperand, both⟩ := getElem?_zip_eq_some.mp isMember
      exact mem_of_getElem? (getElem?_zip_eq_some.mpr ⟨isOperand, (getElem?_zip_eq_some.mp both).1⟩)
    obtain ⟨ready', post⟩ := readied'.copyOut (fun mem inside => inUse _ (ms mem inside)) copies
    refine ⟨ready', fun copies' isCopies => ?_⟩
    cases isCopies
    exact post

end

/-- The registers are in use, also those of some copies behind the instruction. -/
def Prepared (spec : MachineSpec) (walk : Walk) (pending : List PendingCopy) : Prop :=
  walk.Ready spec ∧ ∀ copy ∈ pending, walk.program.InUse spec copy.pair

theorem Ready.prepared (ready : walk.Ready spec) : Prepared spec walk [] :=
    ⟨ready, forall_mem_nil _⟩

/-- The registers stay in use while the runs of an instruction are handled, and the temporaries
have room for the runs that are left. -/
def preparing (spec : MachineSpec) (options : Options) (level : Option Level) (place : UInt32)
    (k : InstructionId) : Invariant ⟨spec.target, options, level⟩ place k where
  before := Prepared spec
  during walk pending runs := Prepared spec walk pending ∧
    ∀ run ∈ runs, run.count ≤ spec.limits.temp
  gone walk pending _ := Prepared spec walk pending
  begins holds isInst := ⟨holds, fun run mem =>
    (holds.1.suits isInst).admitted run (mem_runsInOrder.mp mem)⟩
  step {_ _ pending _ _ _ _ fix} := by
    rintro ⟨⟨ready, waiting⟩, short⟩ isInst found handled _
    obtain ⟨ready', post⟩ := ready.handled isInst found (short _ mem_cons_self) handled
    have grown := (handled.extends ready.sound).keeps.nextTemp
    have still := fun copy mem => (waiting copy mem).mono grown
    have left := fun run mem => short run (mem_cons_of_mem _ mem)
    cases fix with
    | holds => exact ⟨⟨ready', (append_nil pending).symm ▸ still⟩, left⟩
    | copiedOut copies => exact ⟨⟨ready', forall_mem_append.mpr ⟨still, post copies rfl⟩⟩, left⟩
    | narrowed | replaced resume => exact ⟨ready', still⟩

theorem Prepared.conclude {pending : List PendingCopy} (prepared : Prepared spec walk pending)
    (ran : (conclude ⟨spec.target, options, level⟩ place k pending).Yields walk next after) :
    after.Ready spec := by
  obtain ⟨ready, post⟩ := prepared
  obtain ⟨inst, _, reads, _⟩ := yields_bind.mp ran
  obtain ⟨found, _⟩ := instruction_yields.mp reads
  obtain ⟨copies, waiting, learns, _⟩ := conclude_yields ready.sound found ran
  refine ready.learns learns fun pair mem => ?_
  obtain ⟨copy, inside, rfl⟩ := mem_map.mp mem
  rcases mem_append.mp inside with isDeferred | isPending
  · exact ready.deferred copy (waiting copy isDeferred).1
  · exact post copy isPending

theorem Ready.visit (ready : walk.Ready spec)
    (ran : (visit ⟨spec.target, options, level⟩ place k).Yields walk next after) :
    after.Ready spec := by
  obtain ⟨mid, copies, ⟨prepared, _⟩, concludes⟩ | ⟨mid, copies, ⟨ready', post⟩, rfl⟩ :=
    (preparing spec options level place k).visit ready.prepared ran
  · exact prepared.conclude concludes
  · exact ⟨ready'.pass, ready'.sound, ready'.knows, forall_mem_append.mpr ⟨ready'.deferred, post⟩⟩

theorem Ready.visitFrom {remaining : Nat} (ready : walk.Ready spec)
    (ran : (visitFrom ⟨spec.target, options, level⟩ remaining next).Yields walk () after) :
    after.Ready spec :=
  visitFrom_keeps (fun walk _ => walk.Ready spec) (fun ready visits => ready.visit visits) ready ran

end Walk

/-! ### Whole programs -/

namespace Pass

variable {spec : MachineSpec} {options : Options} {level : Option Level} {pass after : Pass}
  {blk : BlockId}

section

variable (ready : pass.Ready spec) (sound : pass.graph.Sound)
  (unmarked : Tracking.Unmarked pass.graph)

include ready sound unmarked

/-- A block is about to be walked over. -/
theorem Ready.begin : Walk.Ready spec ⟨pass, .empty blk, []⟩ where
  pass := ready
  sound := Tracking.sound_empty sound unmarked blk
  knows _ _ _ known := by
    obtain ⟨_, _, impossible, _⟩ := known
    cases impossible
  deferred _ impossible := absurd impossible not_mem_nil

theorem Ready.resolveBlock
    (ran : (resolveBlock ⟨spec.target, options, level⟩ blk).Yields pass () after) :
    after.Ready spec := by
  obtain ⟨first, walked, finished, _, visits, finishes, rfl⟩ := resolveBlock_yields ran
  have visited := (ready.begin sound unmarked).visitFrom visits
  exact (visited.learns (Walk.learns_finish visited.sound true finishes) (forall_mem_nil _)).pass

theorem Ready.resolveBlocks {blocks : List BlockId}
    (ran : (resolveBlocks ⟨spec.target, options, level⟩ blocks).Yields pass () after) :
    after.Ready spec := by
  induction blocks generalizing pass with
  | nil =>
    obtain ⟨_, rfl⟩ := yields_pure.mp ran
    exact ready
  | cons blk rest ih =>
    obtain ⟨_, _, resolves, later⟩ := yields_bind.mp ran
    have extends' := resolveBlock_extends sound unmarked resolves
    exact ih (ready.resolveBlock sound unmarked resolves) extends'.refines.sound
      extends'.unmarked later

end

end Pass

end RegisterChains

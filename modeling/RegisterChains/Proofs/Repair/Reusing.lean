/-
This file proves that a request that is made again reuses its copies. Once copies have made a run
hold, the walk knows what each of the registers in it holds, and the run is on one chain. While
nothing writes the registers of the run or its operands, the walk still knows them, and the chain
stays within its bank. So when a run of the same operands comes up, the registers are among what
may be reused, they fit however many of them are still undecided, and the search finds a plan
without copies.
-/

import RegisterChains.Proofs.Allocation
import RegisterChains.Proofs.Chain.Embedding
import RegisterChains.Proofs.Repair.Optimality

namespace RegisterChains

open Instruction Program Search

namespace Walk

open List Step

open ChainGraph

open Program (standardSetting)

variable {setting : Setting} {position : UInt32} {k : InstructionId} {run : OperandRun}
  {walk mid after : Walk}
  {inst : Instruction} {ops assigned regs others : List Register}
  {pairs : List (Register × Register)}
  {ms : List (Register × List Choice)} {r v : Register} {fix : RunFix} {α : Type}

/-! ### What is known of copies -/

/-- A register is known to hold a value. -/
def Held (walk : Walk) (v r : Register) : Prop := ∃ owned, walk.tracking.Knows v r owned

theorem Held.of_cache (same : after.cache = walk.cache) : after.Held v r ↔ walk.Held v r := by
  unfold Held Tracking.Knows Walk.tracking
  rw [same]

/-- What is known once pairs of registers were copied, one after the other. A register that is
copied again keeps its value. -/
structure Acquires (walk : Walk) (pairs : List (Register × Register)) (after : Walk) : Prop where
  sound : after.tracking.Sound
  scalar : ∀ reg, walk.graph.Scalar reg → after.graph.Scalar reg
  known : ∀ value reg, after.Held value reg → walk.Held value reg ∨ (value, reg) ∈ pairs
  held : ∀ value reg, walk.Held value reg ∨ (value, reg) ∈ pairs →
    (∀ pair ∈ pairs, pair.2 ≠ value ∧ (pair.2 = reg →
      pair.1 = value ∧ reg.isVirtual = true ∧ walk.graph.Scalar reg)) → after.Held value reg

namespace Acquires

/-- Nothing is copied, but there may be more constraints. -/
theorem of_evolves (sound : walk.tracking.Sound) (same : after.cache = walk.cache)
    (evolves : walk.graph.Evolves after.graph) : Acquires walk [] after := by
  have carries := evolves.grows.carries sound.graph.toShaped evolves.sound.toShaped
  refine ⟨?_, fun _ scalar => scalar.mono sound.graph evolves.sound carries.sameArrays carries.find,
    fun _ _ held => ?_, fun _ _ held _ => ?_⟩
  · have sound' := sound.grows evolves.sound evolves.grows
    unfold Walk.tracking
    rw [same]
    exact sound'
  · exact .inl ((Held.of_cache same).mp held)
  · exact (Held.of_cache same).mpr (held.resolve_right not_mem_nil)

theorem trans {pairs' : List (Register × Register)} (first : Acquires walk pairs mid)
    (second : Acquires mid pairs' after) : Acquires walk (pairs ++ pairs') after where
  sound := second.sound
  scalar r scalar := second.scalar r (first.scalar r scalar)
  known v r held := by
    rcases second.known v r held with old | new
    · exact (first.known v r old).imp_right (mem_append_left _)
    · exact .inr (mem_append_right _ new)
  held v r held apart := by
    refine second.held v r ?_ fun pair mem => ?_
    · rw [mem_append, ← or_assoc] at held
      exact held.imp_left fun held => first.held v r held fun pair mem =>
        apart pair (mem_append_left _ mem)
    · obtain ⟨value, again⟩ := apart pair (mem_append_right _ mem)
      refine ⟨value, fun same => ?_⟩
      obtain ⟨value, virt, scalar⟩ := again same
      exact ⟨value, virt, first.scalar r scalar⟩

end Acquires

section

variable (sound : walk.tracking.Sound) {copy : InstructionId}

include sound

theorem remember_acquires {holder : Register} {owned : Bool}
    (ran : (remember position v holder copy owned).Yields walk () after) :
    Acquires walk [(v, holder)] after := by
  have learns := remember_yields sound ran
  obtain ⟨_, track, recorded, rfl⟩ := record_yields ran
  have noted := (sound.noteDef holder).1
  refine ⟨learns.sound, fun _ scalar => learns.scalar sound scalar, ?_, ?_⟩
  · rintro value r ⟨isOwned, known⟩
    exact (learns.knows value r isOwned known).imp (fun old => ⟨isOwned, old.1⟩) And.right
  · intro value r held apart
    obtain ⟨ne, same⟩ := apart _ (mem_singleton_self _)
    by_cases here : holder = r
    · subst here
      obtain ⟨rfl, virt, scalar⟩ := same rfl
      exact ⟨owned, (noted.sound.recordCopy recorded).learned ne.symm virt
        (noted.scalar sound scalar)⟩
    · rcases held with ⟨isOwned, known⟩ | new
      · exact ⟨isOwned, learns.keeps value r isOwned known (by simpa using ne.symm)
          (by simpa using Ne.symm here) (by simpa using Ne.symm here)⟩
      · cases mem_singleton.mp new
        exact absurd rfl here

theorem rememberAll_acquires (ran : (rememberAll position copy pairs).Yields walk () after) :
    Acquires walk pairs after := by
  induction pairs generalizing walk with
  | nil =>
    obtain ⟨_, rfl⟩ := yields_pure.mp ran
    exact .of_evolves sound rfl sound.graph.evolves_refl
  | cons pair rest ih =>
    obtain ⟨v, holder⟩ := pair
    obtain ⟨_, _, remembers, later⟩ := yields_bind.mp ran
    have acquires := remember_acquires sound remembers
    exact acquires.trans (ih acquires.sound later)

/-- The pairs that batches copy are known. -/
theorem copyIn_acquires {batches : List Batch}
    (ran : (copyIn position k pairs batches).Yields walk () after) :
    ∃ made placed hoists copied, Copied pairs batches made placed hoists ∧
      (∀ pair, pair ∈ copied ↔ pair ∈ placed ∨ pair ∈ hoists) ∧ Acquires walk copied after := by
  induction batches generalizing walk with
  | nil =>
    obtain ⟨_, rfl⟩ := yields_pure.mp ran
    exact ⟨[], [], [], [], .nil, fun _ => by simp, .of_evolves sound rfl sound.graph.evolves_refl⟩
  | cons batch rest ih =>
    cases batch with
    | hoist i =>
      rw [copyIn] at ran
      split at ran
      · next v holder isPair =>
        obtain ⟨_, mid, copies, later⟩ := yields_bind.mp ran
        obtain ⟨_, _, _, _, _, rfl, _, _, remembers, _⟩ := hoistCopy_yields sound copies
        have acquires : Acquires walk [(v, holder)] mid := by
          obtain ⟨sound', scalar, known, held⟩ := remember_acquires (by exact sound) remembers
          exact ⟨sound', scalar, known, held⟩
        obtain ⟨made, placed, hoists, copied, isCopied, same, acquires'⟩ := ih acquires.sound later
        refine ⟨made, placed, _, _, .hoist isPair isCopied, fun pair => ?_,
          acquires.trans acquires'⟩
        rw [singleton_append, mem_cons, mem_cons, same]
        tauto
      · exact absurd ran not_yields_breach
    | inPlace start width =>
      obtain ⟨_, mid, copies, later⟩ := yields_bind.mp ran
      obtain ⟨_, _, _, _, _, rfl, isCopy, _, remembers, _⟩ := copyInFront_yields sound copies
      have acquires : Acquires walk ((pairs.drop start).take width) mid := by
        obtain ⟨sound', scalar, known, held⟩ := rememberAll_acquires (by exact sound) remembers
        exact ⟨sound', scalar, known, held⟩
      obtain ⟨made, placed, hoists, copied, isCopied, same, acquires'⟩ := ih acquires.sound later
      refine ⟨_, _, hoists, _, .inPlace isCopy isCopied, fun pair => ?_, acquires.trans acquires'⟩
      rw [mem_append, mem_append, same]
      tauto

end

/-! ### A run that is mended by copies -/

/-- A source run is mended by copies: the registers of a plan take the places of its operands, and
the copies of the plan are made. -/
structure CopiedIn (setting : Setting) (place : UInt32) (key : InstructionId) (run : OperandRun)
    (walk : Walk) (operands : List Register) (plan : Plan) (assigned : List Register)
    (after : Walk) : Prop where
  side : run.side = .source
  steps : ∃ inst changed next graph middle, walk.program.instruction key = .ok inst ∧
    run.operands inst = .ok operands ∧ Planned setting place run walk inst operands plan ∧
    Carried key run walk inst operands plan assigned changed next graph ∧
    walk.Becomes (Program.setInstruction key changed { walk.program with nextTemp := next }) graph
      middle ∧
    (copyIn place key (operands.zip assigned) plan.batches).Yields middle () after

section

variable {plan : Plan} (copied : CopiedIn setting position k run walk ops plan assigned after)

include copied

theorem CopiedIn.handled : ∃ inst, walk.program.instruction k = .ok inst ∧
    Handled setting position k run walk inst ops .holds after := by
  obtain ⟨inst, ch, next, g, mid, found, _, planned, carried, becomes, copies⟩ := copied.steps
  exact ⟨inst, found, .copiedIn copied.side planned carried becomes copies⟩

/-- What is known afterwards of the copies that were made. -/
theorem CopiedIn.acquires (reached : Reached setting walk) : ∃ inst next placed hoists made,
      Supplies walk run inst next ops assigned placed hoists ∧
      (∀ pair, pair ∈ made ↔ pair ∈ placed ∨ pair ∈ hoists) ∧
      (∀ pair ∈ made, ∃ (i : Nat) (choice : Choice), plan.choices[i]? = some choice ∧
        choice.needsCopy = true ∧ assigned[i]? = some pair.2) ∧ Acquires walk made after := by
  obtain ⟨inst, ch, next, g, mid, found, isOps, planned, carried, becomes, copies⟩ := copied.steps
  have sound := reached.virtual.1
  have extends' := carried.extends sound becomes
  obtain ⟨_, placed, hoists, made, isCopied, same, acquires⟩ :=
    copyIn_acquires extends'.sound copies
  refine ⟨inst, next, placed, hoists, made, carried.supplies isOps planned isCopied, same, ?_, ?_⟩
  · intro pair mem
    obtain ⟨width, hoistable, gathers, _⟩ :=
      batches_eq_gather setting walk.program run ops plan.choices
    rw [planned.batches, gathers] at isCopied
    have gathered := Batch.gather_spec width hoistable plan.choices
    obtain ⟨i, covered, atPlace⟩ : ∃ i, (∃ batch ∈ Batch.gather width hoistable plan.choices,
        batch.Covers i) ∧ (ops.zip assigned)[i]? = some pair := by
      rcases (same pair).mp mem with inPlace | hoisted
      · obtain ⟨batch, inside, _, i, covers, atPlace⟩ := isCopied.of_placed inPlace
        exact ⟨i, ⟨batch, inside, covers⟩, atPlace⟩
      · obtain ⟨i, inside, atPlace⟩ := isCopied.of_hoists hoisted
        exact ⟨i, ⟨_, inside, rfl⟩, atPlace⟩
    obtain ⟨choice, isChoice, needs⟩ := (gathered.1 i).mp covered
    exact ⟨i, choice, isChoice, needs, (getElem?_zip_eq_some.mp atPlace).2⟩
  · obtain ⟨fit, _, commits⟩ := carried.commits
    have evolves := (sound.graph.commit_yields commits).1
    exact (Acquires.of_evolves sound becomes.cache (becomes.graph ▸ evolves)).trans acquires

/-- The walk knows what the registers of the run hold, and no operand is known to be a copy. -/
theorem CopiedIn.held (reached : Reached setting walk)
    (arrays : ∀ r, walk.program.Noted r ∨ walk.graph.Scalar r)
    (noted : ∀ op ∈ ops, walk.program.Noted op) (own : ∀ op ∈ ops, ∀ v, ¬ walk.Held v op) :
    (∀ op ∈ ops, ∀ v, ¬ after.Held v op) ∧ ∀ pair ∈ ops.zip assigned, pair.2 = pair.1 ∨
      after.Held pair.1 pair.2 ∨ walk.hoisted.get? pair.1 = some pair.2 := by
  obtain ⟨sound, virt⟩ := reached.virtual
  obtain ⟨inst, next, placed, hoists, made, supplies, same, _, acquires⟩ := copied.acquires reached
  -- what is written is fresh, or holds a copy
  have vacant : ∀ pair ∈ made, pair ∈ ops.zip assigned ∧ walk.Vacant inst next pair.2 := by
    intro pair mem
    rcases (same pair).mp mem with inPlace | hoisted
    · exact supplies.vacant pair inPlace
    · obtain ⟨mem, handed, _⟩ := supplies.handed pair hoisted
      exact ⟨mem, .inl handed⟩
  have apart : ∀ pair ∈ made, ∀ op ∈ ops, pair.2 ≠ op := by
    rintro pair mem op listed rfl
    rcases (vacant pair mem).2 with handed | ⟨⟨v, known⟩, _⟩
    · exact handed.not_noted (noted _ listed)
    · exact own _ listed v ⟨true, known⟩
  -- the cache records what is copied there
  have able : ∀ pair ∈ made, pair.2.isVirtual = true ∧ walk.graph.Scalar pair.2 := by
    intro pair mem
    rcases (vacant pair mem).2 with handed | ⟨⟨v, known⟩, _⟩
    · refine ⟨?_, (arrays _).resolve_left handed.not_noted⟩
      obtain ⟨_, isTemp, _⟩ := handed
      rw [isTemp]
      rfl
    · refine ⟨sound.virtual_of_knows known, fun id bnd named => ?_⟩
      rintro ⟨n, found, payload⟩
      obtain ⟨copy, record, isRecord, _, isDest, _⟩ := known
      obtain ⟨here, n', found', payload'⟩ := sound.marked copy record isRecord
      rw [isDest] at here
      cases named.symm.trans here
      cases found.symm.trans found'
      cases payload.symm.trans payload'
  refine ⟨fun op listed v held => ?_, fun pair mem => ?_⟩
  · rcases acquires.known v op held with old | new
    · exact own op listed v old
    · exact apart _ new op listed rfl
  · obtain ⟨listed, _⟩ := of_mem_zip mem
    have keeps : walk.Held pair.1 pair.2 ∨ pair ∈ made → after.Held pair.1 pair.2 := by
      refine fun held => acquires.held _ _ held fun one copied => ⟨apart one copied _ listed, ?_⟩
      intro here
      rw [← here]
      exact ⟨congrArg Prod.fst (supplies.eq_of_snd (vacant one copied).1 mem here), able one copied⟩
    rcases supplies.each pair mem with kept | ⟨_, others, equivalents, isOther⟩ | copied
    · exact .inl kept
    · obtain ⟨v, rfl | ⟨owned, known⟩, holds⟩ := of_equivalents sound equivalents isOther
      · rcases holds with ⟨_, no, _⟩ | known | hoisted
        · exact absurd rfl no
        · exact .inr (.inl (keeps (.inl known)))
        · exact .inr (.inr hoisted)
      · exact absurd ⟨owned, known⟩ (own _ listed v)
    · exact .inr (.inl (keeps (.inr ((same pair).mpr copied))))

end

/-! ### In between -/

/-- From one walk to another, runs are handled and instructions concluded, and none of these
registers is written: not by a copy, not by an instruction, and not behind it. -/
inductive Sparing (setting : Setting) (regs : List Register) (start : Walk) : Walk → Prop where
  | refl : Sparing setting regs start start
  /-- A run is handled without copies in front of its instruction. -/
  | handles {walk after place key run fix} (spared : Sparing setting regs start walk)
      (yields : (handleRun setting place key run).Yields walk fix after)
      (same : after.cache = walk.cache) : Sparing setting regs start after
  /-- A run is mended by copies in front of its instruction or in the preamble. -/
  | copies {walk after place key run operands assigned plan}
      (spared : Sparing setting regs start walk)
      (copied : CopiedIn setting place key run walk operands plan assigned after)
      (spares : ∀ (index : Nat) choice reg, plan.choices[index]? = some choice →
        choice.needsCopy = true → assigned[index]? = some reg → reg ∉ regs) :
    Sparing setting regs start after
  /-- All runs of an instruction hold, and the block is not descheduled. -/
  | concludes {walk after place key inst pending next} (spared : Sparing setting regs start walk)
      (found : walk.program.instruction key = .ok inst)
      (stays : setting.target.deschedules inst = false)
      (yields : (conclude setting place key pending).Yields walk next after)
      (spares : ∀ dest ∈ inst.dests, dest ∉ regs)
      (behind : ∀ copy, copy ∈ pending ∨ copy ∈ walk.deferred ∧ copy.instruction = key →
        copy.value ∉ regs ∧ copy.holder ∉ regs) : Sparing setting regs start after
  /-- An instruction was replaced. -/
  | defers {walk : Walk} (pending : List PendingCopy) (spared : Sparing setting regs start walk) :
    Sparing setting regs start { walk with deferred := walk.deferred ++ pending }

section

variable (spared : Sparing setting regs walk after) (reached : Reached setting walk)

include spared reached

theorem Sparing.reaches : Reached setting after ∧ walk.Extends after := by
  have sound := reached.virtual.1
  induction spared with
  | refl => exact ⟨reached, .refl sound⟩
  | handles _ ran _ ih =>
    obtain ⟨inst, ops, found, _, handled, _⟩ := handleRun_yields ran
    exact ⟨ih.1.handles found handled, ih.2.trans (handled.extends ih.2.sound)⟩
  | copies _ copied _ ih =>
    obtain ⟨inst, found, handled⟩ := copied.handled
    exact ⟨ih.1.handles found handled, ih.2.trans (handled.extends ih.2.sound)⟩
  | concludes _ _ _ ran _ _ ih =>
    exact ⟨ih.1.concludes ran, ih.2.trans (conclude_extends ih.2.sound ran)⟩
  | defers pending _ ih =>
    exact ⟨ih.1.defers pending, ⟨ih.2.refines, ih.2.sound, ih.2.keeps⟩⟩

/-- What the registers that are spared hold is still known, and nothing else. -/
theorem Sparing.held : (∀ v ∈ regs, ∀ r ∈ regs, walk.Held v r → after.Held v r) ∧
    ∀ r ∈ regs, ∀ v, after.Held v r → walk.Held v r := by
  induction spared with
  | refl => exact ⟨fun _ _ _ _ held => held, fun _ _ _ held => held⟩
  | handles _ _ same ih =>
    exact ⟨fun v mem r mem' held => (Held.of_cache same).mpr (ih.1 v mem r mem' held),
      fun r mem v held => ih.2 r mem v ((Held.of_cache same).mp held)⟩
  | copies spared copied spares ih =>
    obtain ⟨_, _, _, _, made, _, _, needed, acquires⟩ := copied.acquires (spared.reaches reached).1
    have apart : ∀ pair ∈ made, pair.2 ∉ regs := by
      intro pair mem
      obtain ⟨i, choice, isChoice, needs, isRegister⟩ := needed pair mem
      exact spares i choice _ isChoice needs isRegister
    refine ⟨fun v mem r mem' held => acquires.held v r (.inl (ih.1 v mem r mem' held))
      fun pair made => ⟨fun here => apart pair made (here ▸ mem),
        fun here => absurd (here ▸ mem') (apart pair made)⟩, fun r mem v held => ?_⟩
    exact ih.2 r mem v ((acquires.known v r held).resolve_right fun new => apart _ new mem)
  | @concludes now _ _ _ inst pending _ spared found stays ran spares behind ih =>
    obtain ⟨copies, waiting, _, _, retains⟩ :=
      conclude_yields (spared.reaches reached).1.virtual.1 found ran
    have retains := retains stays
    have behind : ∀ copy ∈ copies ++ pending, copy.value ∉ regs ∧ copy.holder ∉ regs :=
      fun copy mem => behind copy ((mem_append.mp mem).symm.imp_right (waiting copy))
    have unwritten : ∀ r ∈ regs, r ∉ inst.dests ++ (copies ++ pending).map (·.value) := by
      intro r mem written
      rcases mem_append.mp written with isDest | isValue
      · exact spares r isDest mem
      · obtain ⟨copy, inside, rfl⟩ := mem_map.mp isValue
        exact (behind copy inside).1 mem
    refine ⟨fun v mem r mem' held => ?_, fun r mem v held => ?_⟩
    · obtain ⟨owned, known⟩ := ih.1 v mem r mem' held
      refine ⟨owned, retains.keeps v r owned known (unwritten v mem) (unwritten r mem')
        fun isHolder => ?_⟩
      rw [map_map] at isHolder
      obtain ⟨copy, inside, rfl⟩ := mem_map.mp isHolder
      exact (behind copy inside).2 mem'
    · obtain ⟨owned, known⟩ := held
      rcases retains.knows v r owned known with old | ⟨_, new⟩
      · exact ih.2 r mem v ⟨owned, old.1⟩
      · obtain ⟨copy, inside, same⟩ := mem_map.mp new
        cases same
        exact absurd mem (behind copy inside).2
  | defers _ _ ih => exact ih

end

/-! ### Plans without copies -/

/-- The registers other than the given one that are known to hold the same value, however many
they are. -/
def alternatives (walk : Walk) (r : Register) : Except Breach (List Register) := do
  let v := (walk.tracking.valueOf r).getD r
  let source := if v ≠ r && v.isVirtual then [v] else []
  let holders ← walk.cache.holders v
  return collect r source (holders.map (·.dest) ++ (walk.hoisted.get? v).toList)

theorem mem_collect_of_mem {besides : Register} {found : List Register}
    (mem : r ∈ found ∨ r ∈ others) (apart : r ≠ besides) : r ∈ collect besides found others := by
  unfold collect
  induction others generalizing found with
  | nil => exact mem.resolve_right not_mem_nil
  | cons one rest ih =>
    rw [foldl_cons]
    refine ih ?_
    rcases mem with early | late
    · refine .inl ?_
      split
      · exact early
      · exact mem_append_left _ early
    · rcases mem_cons.mp late with rfl | later
      · refine .inl ?_
        split
        · next no => simpa [apart] using no
        · exact mem_append_right _ (mem_singleton_self _)
      · exact .inr later

theorem mem_of_mapM {ε β : Type} {check : α → Except ε β} {list : List α} {results : List β}
    (passed : list.mapM check = .ok results) {elem : α} (mem : elem ∈ list) {result : β}
    (isResult : check elem = .ok result) : result ∈ results := by
  rw [except_mapM_eq_ok] at passed
  induction passed with
  | nil => cases mem
  | cons checked _ ih =>
    rcases mem_cons.mp mem with rfl | later
    · cases checked.symm.trans isResult
      exact mem_cons_self
    · exact mem_cons_of_mem _ (ih later)

/-- What is known to hold a value can be reused for it, if there are not too many such
registers. -/
theorem mem_equivalents {op : Register} (sound : walk.tracking.Sound)
    (own : ∀ v, ¬ walk.Held v op) (known : walk.Held op r ∨ walk.hoisted.get? op = some r)
    (apart : r ≠ op) (few : ∀ all, walk.alternatives op = .ok all → all.length ≤ maxEquivalents)
    (same : walk.equivalents op = .ok others) : r ∈ others := by
  have isOwn : walk.tracking.valueOf op = none := by
    cases isValue : walk.tracking.valueOf op with
    | none => rfl
    | some v =>
      obtain ⟨id, record, found, isDest, isValue⟩ := sound.valueOf_eq_some isValue
      exact absurd ⟨_, id, record, found, isValue, isDest, rfl⟩ (own v)
  obtain ⟨records, holders, rest⟩ := except_bind_eq_ok.mp same
  rw [except_pure_eq_ok] at rest
  rw [← rest, take_of_length_le (few _ (except_bind_eq_ok.mpr ⟨records, holders, rfl⟩))]
  refine mem_collect_of_mem (.inr ?_) apart
  rw [isOwn] at holders ⊢
  rcases known with ⟨_, id, record, found, isValue, isDest, _⟩ | hoisted
  · refine mem_append_left _ (mem_map.mpr ⟨record, ?_, isDest⟩)
    have listed := (sound.listed op id).mpr ⟨record, found, isValue⟩
    exact mem_of_mapM holders listed (Pool.get_eq_ok.mpr found)
  · exact mem_append_right _ (Option.mem_toList.mpr hoisted)

/-- Every member can be left as it is, and what holds the same value can be reused. -/
theorem offers_of_choices (reuses : setting.options.reuseCopies = true)
    (side : run.side = .source) (listed : choices setting walk position inst run ops = .ok ms) :
    ms.map Prod.fst = ops ∧
      ∀ mem ∈ ms, .keep ∈ mem.2 ∧ ∃ others, walk.equivalents mem.1 = .ok others ∧
        ∀ one ∈ others, .reuse one ∈ mem.2 := by
  obtain ⟨same, holders, listed⟩ := except_bind_eq_ok.mp listed
  rw [except_pure_eq_ok] at listed
  rw [except_mapM_eq_ok] at holders
  subst listed
  refine ⟨map_fst_zip (Nat.le_of_eq (holders.length_eq.trans (length_map _).symm)), ?_⟩
  rintro ⟨r, options⟩ isMem
  rw [zip_map_right, mem_map] at isMem
  obtain ⟨⟨_, others⟩, paired, isMember⟩ := isMem
  obtain ⟨rfl, rfl⟩ := Prod.mk.inj isMember
  have known := forall₂_iff_zip.mp holders |>.2 paired
  rw [if_pos (by simp [reuses, side])] at known
  exact ⟨by simp, others, known, fun one inside => by simp [inside]⟩

theorem exists_plan
    (offers : List.Forall₂ (fun (mem : Register × List Choice) r => ∃ choice ∈ mem.2,
      choice.needsCopy = false ∧ choice.slot mem.1 = .register r) ms assigned) :
    ∃ plan, List.Forall₂ (fun mem choice => choice ∈ mem.2) ms plan ∧ copies plan = 0 ∧
      slotsOf (ms.map Prod.fst) plan = assigned.map .register := by
  induction offers with
  | nil => exact ⟨[], .nil, rfl, rfl⟩
  | cons offer _ ih =>
    obtain ⟨choice, offered, free, leads⟩ := offer
    obtain ⟨plan, rest, none, slots⟩ := ih
    refine ⟨choice :: plan, .cons offered rest, ?_, congrArg₂ List.cons leads slots⟩
    rw [copies, countP_cons_of_neg (by simp [free])]
    exact none

theorem batches_eq_nil {plan : List Choice} (none : copies plan = 0) :
    batches setting walk.program run ops plan = [] := by
  obtain ⟨width, hoistable, gathers, _⟩ := batches_eq_gather setting walk.program run ops plan
  rw [gathers]
  refine foldlRecOn plan.zipIdx _ (motive := (· = [])) rfl fun _ same pair mem => ?_
  have free : ¬ pair.1.needsCopy = true := countP_eq_zero.mp none _ (fst_mem_of_mem_zipIdx mem)
  rw [same]
  simp [free]

/-- If the search can come to a plan without copies, then no copies are planned. -/
theorem planCopies_frugal {plan : Plan} (isInst : walk.program.instruction k = .ok inst)
    (survives : ∀ ms, choices setting walk position inst run ops = .ok ms →
      ∃ plan, Survives (walk.graph.fit · run.parity) ms plan ∧ copies plan = 0)
    (ran : (planCopies setting position k run ops).Yields walk plan after) : plan.batches = [] := by
  unfold planCopies at ran
  rw [yields_get_bind] at ran
  have read := yields_instruction_bind isInst ran
  obtain ⟨ms, listed, rest⟩ := yields_lift_bind.mp read
  rw [yields_reportAll_bind] at rest
  obtain ⟨free, survives, none⟩ := survives ms listed
  cases picks_run (walk.graph.fit · run.parity) ms with
  | kept _ bounded =>
    obtain ⟨_, _, no, _⟩ := bounded free survives
    cases no
  | found best isBest _ result =>
    simp only [result] at rest
    obtain ⟨rfl, _⟩ := yields_pure.mp rest
    exact batches_eq_nil (Nat.le_zero.mp (none ▸ isBest.fewest free survives))

/-- Handling a run adds no copy, neither in the block nor in the preamble: the counts stay, and
unless the instruction is replaced, all instructions stand where they stood. -/
structure Copyless (walk : Walk) (fix : RunFix) (after : Walk) : Prop where
  copies : after.stats.copies = walk.stats.copies
  hoisted : after.stats.hoisted = walk.stats.hoisted
  layout : (∀ resume, fix ≠ .replaced resume) → after.program.layout = walk.program.layout

theorem copyless_of_books (same : after.books = walk.books) : walk.Copyless fix after := by
  simp only [Pass.books, Prod.mk.injEq, frame] at same
  exact ⟨same.2.1, same.2.2.1, fun _ => same.1.1⟩

theorem Copyless.of_books (same : mid.books = walk.books) (rest : mid.Copyless fix after) :
    walk.Copyless fix after := by
  obtain ⟨copies, hoisted, layout⟩ := @copyless_of_books _ _ fix same
  exact ⟨rest.copies.trans copies, rest.hoisted.trans hoisted,
    fun stays => (rest.layout stays).trans (layout stays)⟩

theorem Calm.books_eq {step : Step Walk α} {v : α} (calm : Calm step)
    (ran : step.Yields walk v after) : after.books = walk.books := by
  rw [← ran.leaves_eq]
  exact congrArg Prod.snd (calm walk).1

section

variable {fix : RunFix} (isInst : walk.program.instruction k = .ok inst)

include isInst

theorem relaxOrCopy_copyless (side : run.side = .source)
    (frugal : ∀ plan mid, (planCopies setting position k run ops).Yields walk plan mid →
      plan.batches = [])
    (ran : (relaxOrCopy setting position k run ops).Yields walk fix after) :
    walk.Copyless fix after := by
  obtain ⟨plan, mid, plans, rest⟩ := yields_bind.mp ran
  have none := frugal plan mid plans
  obtain ⟨rfl, _⟩ := planCopies_yields isInst plans
  have copies : (copyRun position k run ops plan).Yields mid fix after →
    mid.Copyless fix after := by
    intro ran
    obtain ⟨assigned, applied, applies, rest⟩ := yields_bind.mp ran
    have calm := calm_applyPlan.books_eq applies
    simp only [side, none] at rest
    obtain ⟨_, _, made, ended⟩ := yields_bind.mp rest
    obtain ⟨_, rfl⟩ := yields_pure.mp made
    obtain ⟨_, rfl⟩ := yields_pure.mp ended
    exact copyless_of_books calm
  split at rest
  · obtain ⟨result, _, relaxes, relaxed⟩ := yields_bind.mp rest
    obtain ⟨rfl, rfl⟩ | ⟨fix', prog, rfl, isRelaxed, rfl⟩ := tryRelax_yields isInst relaxes
    · exact copies relaxed
    · have ended := yields_count_bind.mp relaxed
      obtain ⟨rfl, rfl⟩ := yields_pure.mp ended
      refine ⟨rfl, rfl, fun stays => ?_⟩
      cases isRelaxed with
      | narrowed => rfl
      | expanded => exact absurd rfl (stays _)
  · exact copies rest

theorem repairRun_copyless (side : run.side = .source)
    (frugal : ∀ plan mid, (planCopies setting position k run ops).Yields walk plan mid →
      plan.batches = [])
    (ran : (repairRun setting position k run ops).Yields walk fix after) :
    walk.Copyless fix after := by
  have reorders : ∀ {result mid}, (tryReorder setting k run ops).Yields walk result mid →
      (result = false ∧ mid = walk) ∨ (result = true ∧ mid.books = walk.books) := fun tried =>
    (tryReorder_yields isInst tried).imp_right
      (And.imp_right fun _ => calm_tryReorder.books_eq tried)
  have substitutes : ∀ {result mid}, (tryConstants setting k run ops).Yields walk result mid →
      (result = false ∧ mid = walk) ∨ (result = true ∧ mid.books = walk.books) := fun tried =>
    (tryConstants_yields isInst tried).imp_right
      (And.imp_right fun _ => calm_tryConstants.books_eq tried)
  rw [repairRun_eq] at ran
  obtain rest | ⟨_, helped, _, rfl⟩ := tryFirst_yields reorders ran
  · obtain rest | ⟨_, helped, _, rfl⟩ := tryFirst_yields substitutes rest
    · exact relaxOrCopy_copyless isInst side frugal rest
    · exact copyless_of_books helped
  · exact copyless_of_books helped

/-- A run for which no copies are planned is handled without any. -/
theorem handleRun_copyless (isOps : run.operands inst = .ok ops) (side : run.side = .source)
    (frugal : ∀ conflict, walk.graph.fitOperands ops run.parity = .error conflict →
      ∀ stats plan mid,
      (planCopies setting position k run ops).Yields { walk with stats := stats } plan mid →
      plan.batches = [])
    (ran : (handleRun setting position k run).Yields walk fix after) : walk.Copyless fix after := by
  have read := yields_instruction_bind isInst ran
  obtain ⟨_, isOperands, rest⟩ := yields_lift_bind.mp read
  cases isOps.symm.trans isOperands
  rw [yields_get_bind] at rest
  obtain ⟨stats, counts, rest⟩ := yields_lift_bind.mp rest
  rw [yields_modify_bind] at rest
  have counted : ({ walk with stats := stats } : Walk).books = walk.books := by
    rw [Stats.eq_of_countChecked counts]
    rfl
  refine .of_books counted ?_
  obtain ⟨verdict, _, judges, judged⟩ := yields_bind.mp rest
  obtain ⟨isVerdict, rfl⟩ := judge_yields.mp judges
  split at judged
  · obtain ⟨_, commits, _⟩ := yields_bind_pure.mp judged
    exact copyless_of_books (calm_commit.books_eq commits)
  · rw [yields_report_bind] at judged
    have repairs := yields_count_bind.mp judged
    refine .of_books ?_
      (repairRun_copyless (by exact isInst) side (frugal _ isVerdict.symm _) repairs)
    rfl

end

/-! ### The same request again -/

/-- A source run is mended by copies, and later another run of the same operands and parity is
handled. If nothing in between writes an operand or a register of the mended run, and what the
preamble holds for them is what it held before, then the copies are reused: no copy is added. The
chains have to fit their banks, and the operands and all members of arrays have to be in use, so
that they are not handed out as fresh registers. No operand may be a known copy, which is what
`Visits.not_knows` says of every visit. -/
theorem copies_reused {plan : Plan} {u v : Walk} {fix : RunFix} {place : UInt32}
    {key : InstructionId} {again : OperandRun} {user : Instruction}
    (reuses : setting.options.reuseCopies = true) (reached : Reached setting walk)
    (bounded : walk.graph.Bounded) (arrays : ∀ reg, walk.program.Noted reg ∨ walk.graph.Scalar reg)
    (noted : ∀ op ∈ ops, walk.program.Noted op) (own : ∀ op ∈ ops, ∀ value, ¬ walk.Held value op)
    (copied : CopiedIn setting position k run walk ops plan assigned after)
    (spared : Sparing setting (ops ++ assigned) after u)
    (preamble : ∀ pair ∈ ops.zip assigned, walk.hoisted.get? pair.1 = some pair.2 →
      u.hoisted.get? pair.1 = some pair.2)
    (found : u.program.instruction key = .ok user) (same : again.operands user = .ok ops)
    (side : again.side = .source) (parity : again.parity = run.parity)
    (few : ∀ op ∈ ops, ∀ all, u.alternatives op = .ok all → all.length ≤ maxEquivalents)
    (handles : (handleRun setting place key again).Yields u fix v) : u.Copyless fix v := by
  have sound := reached.virtual.1
  obtain ⟨inst, ch, next, g, mid, isInst, isOps, planned, carried, becomes, copies⟩ := copied.steps
  have reached' : Reached setting after :=
    reached.handles isInst (.copiedIn copied.side planned carried becomes copies)
  obtain ⟨reachedUser, extends'⟩ := spared.reaches reached'
  obtain ⟨soundUser, virtUser⟩ := reachedUser.virtual
  obtain ⟨ownAfter, held⟩ := copied.held reached arrays noted own
  obtain ⟨keeps, nothing⟩ := spared.held reached'
  have ownUser : ∀ op ∈ ops, ∀ value, ¬ u.Held value op := fun op isMem value held =>
    ownAfter op isMem value (nothing op (mem_append_left _ isMem) value held)
  have known : ∀ pair ∈ ops.zip assigned, pair.2 = pair.1 ∨ u.Held pair.1 pair.2 ∨
      u.hoisted.get? pair.1 = some pair.2 := by
    intro pair isMem
    obtain ⟨isOp, isAssigned⟩ := of_mem_zip isMem
    exact (held pair isMem).imp_right (Or.imp (keeps _ (mem_append_left _ isOp) _
      (mem_append_right _ isAssigned)) (preamble pair isMem))
  have length := carried.length isOps
  obtain ⟨fit, fits, commits⟩ := carried.commits
  have copying := (copyIn_extends (carried.extends sound becomes).sound copies).refines
  rw [becomes.graph] at copying
  refine handleRun_copyless found same side
    (fun conflict rejected stats plan mid plans => ?_) handles
  rcases sound.graph.refits bounded fits commits (copying.trans extends'.refines) with
    ⟨hardware, fit, fits⟩ | ⟨virtual, fits⟩
  · -- only the operands themselves can be hardware registers, and those are rejected
    have kept : ∀ pair ∈ ops.zip assigned, pair.2 = pair.1 := fun pair isMem =>
      (known pair isMem).resolve_right fun stored => by
        refine hardware _ (of_mem_zip isMem).2 (hardwareBank_of_isVirtual ?_)
        rcases stored with ⟨owned, known⟩ | hoisted
        · exact soundUser.virtual_of_knows known
        · exact virtUser _ (Assoc.mem_of_get? hoisted)
    have equal : assigned = ops := calc
      assigned = (ops.zip assigned).map Prod.snd := (map_snd_zip (Nat.le_of_eq length)).symm
      _ = (ops.zip assigned).map Prod.fst := map_congr_left kept
      _ = ops := map_fst_zip (Nat.le_of_eq length.symm)
    rw [equal, ← parity, rejected] at fits
    cases fits
  · -- leaving or reusing the registers of the mended run is a plan, and the search never drops it
    refine planCopies_frugal (by exact found) (fun ms listed => ?_) plans
    obtain ⟨named, offers⟩ := offers_of_choices reuses side listed
    obtain ⟨plan, offered, none, slots⟩ : ∃ plan, List.Forall₂ (fun mem choice => choice ∈ mem.2)
        ms plan ∧ Search.copies plan = 0 ∧
        slotsOf (ms.map Prod.fst) plan = assigned.map .register := by
      refine exists_plan (forall₂_iff_zip.mpr ⟨?_, fun {mem r} paired => ?_⟩)
      · rw [length, ← named, length_map]
      · have isMem : (mem.1, r) ∈ ops.zip assigned := by
          rw [← named, zip_map_left]
          exact mem_map.mpr ⟨_, paired, rfl⟩
        obtain ⟨keep, others, isOthers, reuse⟩ := offers mem (of_mem_zip paired).1
        by_cases kept : r = mem.1
        · exact ⟨.keep, keep, rfl, congrArg Slot.register kept.symm⟩
        · refine ⟨.reuse r, reuse r ?_, rfl, rfl⟩
          have isOp := (of_mem_zip isMem).1
          exact mem_equivalents soundUser (ownUser _ isOp) ((known _ isMem).resolve_left kept) kept
            (few _ isOp) isOthers
    refine ⟨plan, ⟨offered, fun count _ => ?_⟩, none⟩
    rw [slots, parity]
    exact fits (count + 1) (Nat.succ_pos count)

/-- A register that is linked to another one is read in front of a third, twice. -/
def repeating : Walk := { swapping with
  program := (do
    let blk ← addBlock "entry"
    let _ ← append blk (← sample [] [.temp 1, .temp 3])
    let _ ← append blk (← dot (.temp 5) [.temp 4, .temp 3] [.temp 1, .temp 3])
    pure () : Step Program Unit).leaves (.empty "main") }

/-- It is copied for the first instruction, -/
def repeatingCopied : Walk :=
  (copyIn 0 ⟨0⟩ ([Register.temp 1, .temp 3].zip [.temp 6, .temp 3]) [.inPlace 0 1]).leaves
    ((applyPlan ⟨0⟩ (.sources 0 2 (some 0)) [.temp 1, .temp 3]
      ⟨[.fresh, .keep], [.inPlace 0 1]⟩).leaves repeating)

/-- which then holds. -/
def repeatingConcluded : Walk := (conclude standardSetting 0 ⟨0⟩ []).leaves repeatingCopied

theorem copiedIn_repeating : CopiedIn standardSetting 0 ⟨0⟩ (.sources 0 2 (some 0)) repeating
    [.temp 1, .temp 3] ⟨[.fresh, .keep], [.inPlace 0 1]⟩ [.temp 6, .temp 3] repeatingCopied := by
  have found : repeating.program.instruction ⟨0⟩ = sample [] [.temp 1, .temp 3] := by
    decide +kernel
  have plans : (planCopies standardSetting 0 ⟨0⟩ (.sources 0 2 (some 0)) [.temp 1, .temp 3]).Yields
      repeating ⟨[.fresh, .keep], [.inPlace 0 1]⟩ _ := yields_of_result (by decide +kernel)
  have applies : (applyPlan ⟨0⟩ (.sources 0 2 (some 0)) [.temp 1, .temp 3]
    ⟨[.fresh, .keep], [.inPlace 0 1]⟩).Yields
      repeating [.temp 6, .temp 3] _ := yields_of_result (by decide +kernel)
  obtain ⟨_, planned⟩ := planCopies_yields (found.trans rfl) plans
  obtain ⟨ch, next, g, carried, becomes⟩ := applyPlan_yields (found.trans rfl) applies
  exact ⟨rfl, _, ch, next, g, _, found.trans rfl, rfl, planned, carried, becomes,
    yields_of_result (by decide +kernel)⟩

theorem concludes_repeating : (conclude standardSetting 0 ⟨0⟩ []).Yields repeatingCopied
    (some ⟨1⟩) repeatingConcluded := yields_of_result (by decide +kernel)

/-- The second instruction reads the copies too. -/
theorem copies_reused_repeating : repeatingConcluded.stats.copies = 1 ∧
    ∃ v, (handleRun standardSetting 1 ⟨1⟩ (.sources 2 2 (some 1))).Yields repeatingConcluded
      .holds v ∧ repeatingConcluded.Copyless .holds v := by
  have sound := sound_empty ⟨4, 4, 4, 4⟩
  have evolves := sound.evolves_link (.temp 1) (.temp 2) true false (.inl rfl)
  have bounded := (bounded_empty (by decide)).link sound (.temp 1) (.temp 2) true false (.inl rfl)
  have unmarked : Tracking.Unmarked (empty ⟨4, 4, 4, 4⟩) := fun _ _ _ no => by cases no
  have reached : Reached standardSetting repeating :=
    .begins ⟨0⟩ evolves.sound (unmarked.grows evolves.grows) rfl
  have arrays : ∀ r, repeating.program.Noted r ∨ repeating.graph.Scalar r := by
    refine fun r => .inr fun id bnd _ arrayed => ?_
    have carries := evolves.grows.carries sound.toShaped evolves.sound.toShaped
    obtain ⟨_, no, _⟩ := (carries.sameArrays id bnd).mp arrayed
    cases no
  have noted : ∀ op ∈ [.temp 1, .temp 3], repeating.program.Noted op := by
    unfold Noted
    decide +kernel
  have own : ∀ op ∈ [.temp 1, .temp 3], ∀ v, ¬ repeating.Held v op := by
    rintro _ _ _ ⟨_, _, _, no, _⟩
    cases no
  have spared : Sparing standardSetting [.temp 1, .temp 3, .temp 6, .temp 3] repeatingCopied
      repeatingConcluded := by
    have found : repeatingCopied.program.instruction ⟨0⟩ =
      sample [] [.temp 6, .temp 3] := by decide +kernel
    refine .concludes .refl (found.trans rfl) rfl concludes_repeating ?_ fun copy waits => ?_
    · exact forall_mem_nil _
    have none : repeatingCopied.deferred = [] := by decide +kernel
    simp [none] at waits
  have few : ∀ op ∈ [.temp 1, .temp 3], ∀ all, repeatingConcluded.alternatives op = .ok all →
      all.length ≤ maxEquivalents := by
    have one : repeatingConcluded.alternatives (.temp 1) = .ok [.temp 6] := by decide +kernel
    have two : repeatingConcluded.alternatives (.temp 3) = .ok [] := by decide +kernel
    simp [one, two, maxEquivalents]
  have found : repeatingConcluded.program.instruction ⟨1⟩ =
    dot (.temp 5) [.temp 4, .temp 3] [.temp 1, .temp 3] := by decide +kernel
  have handles : (handleRun standardSetting 1 ⟨1⟩ (.sources 2 2 (some 1))).Yields repeatingConcluded
    .holds _ := yields_of_result (by decide +kernel)
  refine ⟨by decide +kernel, _, handles, copies_reused rfl reached bounded arrays noted own
    copiedIn_repeating spared (fun _ _ no => ?_) (found.trans rfl) ?_ ?_ ?_ few handles⟩
  · cases no
  · rfl
  · rfl
  · rfl

/-- If the first run of the second instruction is handled before, then that overwrites the copy,
and it is made again. -/
theorem copies_repeated : ∃ after u mid v,
    CopiedIn standardSetting 0 ⟨0⟩ (.sources 0 2 (some 0)) repeating [.temp 1, .temp 3]
      ⟨[.fresh, .keep], [.inPlace 0 1]⟩ [.temp 6, .temp 3] after ∧
    (conclude standardSetting 0 ⟨0⟩ []).Yields after (some ⟨1⟩) u ∧
    (handleRun standardSetting 1 ⟨1⟩ (.sources 0 2 (some 0))).Yields u .holds mid ∧
    (handleRun standardSetting 1 ⟨1⟩ (.sources 2 2 (some 1))).Yields mid .holds v ∧
    mid.stats.copies < v.stats.copies :=
  ⟨_, _, _, _, copiedIn_repeating, concludes_repeating, yields_of_result (by decide +kernel),
    yields_of_result (by decide +kernel), by decide +kernel⟩

end Walk

end RegisterChains

/-
This file carries the lines of a program through the visits of a walk. A block that is being
walked over consists of lines that stem from the lines that were visited, of lines without runs
that are left of a replaced instruction, and of the lines of the origin that are still to be
visited. While an instruction is visited, its runs are handled one by one, and the operands of the
runs that are left are those of the original instruction.
-/

import RegisterChains.Proofs.Repair.Origins
import RegisterChains.Proofs.Repair.Position

namespace RegisterChains

open OperandRun

namespace Walk

open List MachineSpec

variable {code' : BlockId → List Line} {made : List Instruction} {lines : List Line}
  {setting : Setting} {copies : List (Register × Register)}

/-- How far a program has been worked on: the copies in the preamble, and the lines. -/
structure Stage where
  copies : List (Register × Register)
  code : BlockId → List Line

variable {origin : Origin} {spec : MachineSpec} {options : Options} {level : Option Level}
  {place : UInt32} {k : InstructionId} {run : OperandRun} {runs : List OperandRun}
  {walk after : Walk}
  {base : Stage} {blk : BlockId} {orig cur ch : Instruction} {ops : List Register}
  {placed hoists : List (Register × Register)} {next : UInt32} {pending post : List PendingCopy}
  {code : BlockId → List Line} {prog : Program}

/-! ### How far an instruction has been handled -/

/-- Nothing has been done about an instruction, except that it may have lost destinations. -/
structure Opens (orig cur : Instruction) (pending : List PendingCopy) : Prop where
  pending : pending = []
  sources : cur.sources = orig.sources
  dests : ∀ dest ∈ cur.dests, dest ∈ orig.dests

/-- The runs of an instruction that are left to handle. Once one of them has been handled, only
runs that are read are left. -/
structure Progress (orig cur : Instruction) (pending : List PendingCopy)
    (runs : List OperandRun) : Prop where
  listed : ∀ run ∈ runs, run ∈ MachineSpec.runs cur
  apart : runs.Pairwise Apart
  tail : ∀ run ∈ runs.tail, run.side = .source
  intact : ∀ run ∈ runs, run.side = .source → run.operands cur = run.operands orig
  opens : (∀ run ∈ runs, run.side = .source) ∨ Opens orig cur pending

theorem Opens.progress (opens : Opens orig cur pending) :
    Progress orig cur pending (MachineSpec.runs cur) where
  listed _ mem := mem
  apart := runs_apart cur
  tail _ mem := side_of_mem_tail mem
  intact run _ side := by
    unfold operands
    rw [list_of_source side, list_of_source side, opens.sources]
  opens := .inr opens

section

variable (progress : Progress orig cur pending (run :: runs))

include progress

theorem Progress.opens_of_dest (side : run.side = .dest) : Opens orig cur pending := by
  rcases progress.opens with sources | opens
  · cases side.symm.trans (sources run mem_cons_self)
  · exact opens

theorem Progress.handled (differs : MachineSpec.Differs run cur ops ch) (post : List PendingCopy) :
    Progress orig ch post runs := by
  obtain ⟨apart, apart'⟩ := pairwise_cons.mp progress.apart
  refine ⟨fun one mem => ?_, apart', fun one mem => ?_, fun one mem side => ?_, .inl progress.tail⟩
  · rw [differs.runs]
    exact progress.listed one (mem_cons_of_mem _ mem)
  · exact progress.tail one (mem_of_mem_tail mem)
  · rw [differs.others one (apart one mem)]
    exact progress.intact one (mem_cons_of_mem _ mem) side

/-- The operands of a run that is left are registers of the origin. -/
theorem Progress.own (mem : (k, orig) ∈ origin.code blk) (found : run.operands cur = .ok ops) :
    ∀ op ∈ ops, origin.Own op := by
  have noted := origin.noted blk _ mem
  intro op inside
  cases side : run.side with
  | dest =>
    have written := isWritten_of_mem (progress.listed run mem_cons_self) side
    cases written.operands_eq.symm.trans found
    exact noted op (mem_append_left _ ((progress.opens_of_dest side).dests op inside))
  | source =>
    rw [progress.intact run mem_cons_self side] at found
    obtain ⟨pre, post, cuts⟩ := operands_eq_ok.mp found
    have list := (list_of_source side orig).symm.trans cuts.list
    refine noted op (mem_append_right _ ?_)
    show op ∈ orig.sources
    rw [list]
    simp [inside]

end

/-! ### What is worked on -/

/-- A block that is being walked over: the lines of the origin that have been visited, what they
have become, and those left to visit. -/
structure Scene extends Stage where
  before : List Line
  front : List Line
  todo : List Line

/-- The lines of a program that stems from an origin. The blocks apart from the one that is being
walked over stay as they were, and copies stay in the preamble. -/
structure Derives (origin : Origin) (base : Stage) (block : BlockId) (prog : Program)
    (copies : List (Register × Register)) (code : BlockId → List Line) : Prop where
  shown : prog.Shows origin.order code
  preamble : ∀ preamble, origin.program.preamble = some preamble → (code preamble).map Prod.snd =
      (origin.code preamble).map Prod.snd ++ copies.map hoistedMove
  stems : ∀ other ∈ origin.order, other ≠ block → ∀ line ∈ code other,
    origin.Stems prog copies other line
  elsewhere : ∀ other ∈ origin.order, other ≠ block → code other = base.code other
  grows : ∀ pair ∈ base.copies, pair ∈ copies

theorem Derives.reworks {after : Program} (derives : Derives origin base blk prog copies code)
    (kept : origin.program.Keeps prog)
    (reworks : prog.Reworks origin.order code blk lines (hoists.map hoistedMove) after code')
    (grown : prog.nextTemp ≤ after.nextTemp) (fresh : ∀ pair ∈ hoists, ¬ prog.Noted pair.2) :
    Derives origin base blk after (copies ++ hoists) code' := by
  have elsewhere : ∀ one ∈ origin.order, one ≠ blk → code' one = code one :=
    fun one body ne => reworks.elsewhere one ne (derives.shown.preamble_ne body)
  refine ⟨reworks.shown, fun preamble isPreamble => ?_, fun one body ne line mem => ?_,
    fun one body ne => ?_, fun pair mem =>
    mem_append_left _ (derives.grows pair mem)⟩
  · rw [reworks.hoisted preamble (kept.preamble.trans isPreamble),
      derives.preamble preamble isPreamble, append_assoc, map_append]
  · rw [elsewhere one body ne] at mem
    exact (derives.stems one body ne line mem).grow grown fresh
  · rw [elsewhere one body ne]
    exact derives.elsewhere one body ne

/-- The walk is between two visits. Some lines without runs may be left of an instruction that was
replaced. -/
structure Stands (origin : Origin) (base : Stage) (block : BlockId) (walk : Walk)
    (scene : Scene) (plain : List Line) : Prop where
  grounded : Grounded origin scene.copies walk
  derives : Derives origin base block walk.program scene.copies scene.code
  here : scene.code block = scene.front ++ plain ++ scene.todo
  source : origin.code block = scene.before ++ scene.todo
  stems : ∀ line ∈ scene.front ++ plain, origin.Stems walk.program scene.copies block line
  bare : ∀ line ∈ plain, MachineSpec.runs line.2 = []
  deferred : ∀ copy ∈ walk.deferred, origin.Returns walk.program scene.copies block copy ∧
    copy.line ∈ scene.front ++ plain

/-- The walk visits an instruction. -/
structure Visits (origin : Origin) (base : Stage) (block : BlockId) (key : InstructionId)
    (walk : Walk) (scene : Scene) (orig cur : Instruction) (pending : List PendingCopy) :
    Prop where
  grounded : Grounded origin scene.copies walk
  derives : Derives origin base block walk.program scene.copies scene.code
  here : scene.code block =
    scene.front ++ (key, cur) :: (pending.map PendingCopy.line ++ scene.todo)
  source : origin.code block = scene.before ++ (key, orig) :: scene.todo
  front : ∀ line ∈ scene.front, origin.Stems walk.program scene.copies block line
  stems : origin.Stems walk.program scene.copies block (key, cur)
  pending : ∀ copy ∈ pending, origin.Returns walk.program scene.copies block copy
  deferred : ∀ copy ∈ walk.deferred, origin.Returns walk.program scene.copies block copy ∧
    copy.line ∈ scene.front

variable {scene : Scene} {plain : List Line} {written : List Register}

section

variable (visits : Visits origin base blk k walk scene orig cur pending)

include visits

theorem Visits.member : (k, orig) ∈ origin.code blk := by
  rw [visits.source]
  exact mem_append_cons_self

theorem Visits.found : walk.program.instruction k = .ok cur :=
  visits.derives.shown.instruction_of_split visits.here

/-- No operand of a run that is left is a copy that the walk knows. -/
theorem Visits.not_knows (progress : Progress orig cur pending (run :: runs))
    (found : run.operands cur = .ok ops) {op v : Register} {owned : Bool} (mem : op ∈ ops) :
    ¬ walk.tracking.Knows v op owned := fun known =>
  (visits.grounded.aware.knows _ _ _ known).2.1 (progress.own visits.member found op mem)

end

/-- A visit of a line of the origin begins. -/
theorem Stands.visits {todo : List Line} (stands : Stands origin base blk walk scene [])
    (head : scene.todo = (k, orig) :: todo) :
    Visits origin base blk k walk { scene with todo := todo } orig orig [] := by
  have here := stands.here
  have source := stands.source
  have stems := stands.stems
  have deferred := stands.deferred
  rw [append_nil] at here stems deferred
  rw [head] at here source
  have mem : (k, orig) ∈ origin.code blk := by
    rw [source]
    exact mem_append_cons_self
  exact ⟨stands.grounded, stands.derives, here, source, stems,
    stands.grounded.hoisted.stems stands.grounded.keeps.nextTemp mem,
    forall_mem_nil _, deferred⟩

theorem opens_self (orig : Instruction) : Opens orig orig [] := ⟨rfl, rfl, fun _ inside => inside⟩

/-! ### One run -/

/-- Only when a run is written are there copies behind the instruction. -/
theorem Mends.behind_of_source
    (mends : Mends setting walk run cur ops next placed hoists made ch post)
    (side : run.side = .source) : post = [] := by
  cases mends with
  | fits | reordered _ | substituted _ | copiedIn _ _ _ _ => rfl
  | copiedOut dest _ _ => cases side.symm.trans dest

theorem side_of_acceptsOrder {order : List Nat}
    (accepts : MachineSpec.acceptsOrder cur run order = true) : run.side = .source := by
  unfold MachineSpec.acceptsOrder at accepts
  simp only [Bool.and_eq_true, beq_iff_eq] at accepts
  exact accepts.1.1

/-- The changed instruction stems from the origin. -/
theorem Visits.stems_changed (visits : Visits origin base blk k walk scene orig cur pending)
    (progress : Progress orig cur pending (run :: runs)) (found : run.operands cur = .ok ops)
    (mends : Mends ⟨spec.target, options, level⟩ walk run cur ops next placed hoists made ch post)
    (grown : next ≤ after.program.nextTemp) (keeps : walk.program.Keeps after.program) :
    origin.Stems after.program (scene.copies ++ hoists) blk (k, ch) := by
  have own := progress.own visits.member found
  have takes := mends.takes own
  have stems := visits.stems.grow keeps.nextTemp takes.fresh
  have hoisted := takes.appends visits.grounded grown keeps
  have known : ∀ r, origin.Own r → after.program.Noted r ∧
      ∀ pair ∈ scene.copies ++ hoists, pair.2 ≠ r := fun r isOwn =>
    ⟨(isOwn.mono visits.grounded.keeps.nextTemp).mono keeps.nextTemp,
      fun pair mem same => (hoisted.holders pair mem).1 (same ▸ isOwn)⟩
  have intact : run.side = .source → run.operands orig = .ok ops := fun side =>
    (progress.intact run mem_cons_self side).symm.trans found
  cases mends with
  | fits => exact stems
  | reordered reordered =>
    obtain ⟨order, _, _, accepts, reorders⟩ := reordered.order
    have side := side_of_acceptsOrder accepts
    obtain ⟨_, picked, _, _, moved, moves, rfl⟩ := Target.reorderBySwizzle_eq_ok reorders
    cases found.symm.trans moves.isRun
    have moved := stems_of_replace side stems visits.member found (intact side) moves.replaced
      fun i r isRegister => by
        have inside := mem_of_getElem? isRegister
        rw [← Target.filterMap_of_origins moves.origins] at inside
        obtain ⟨_, _, picked⟩ := mem_filterMap.mp inside
        obtain ⟨noted, apart⟩ := known r (own r (mem_of_getElem? picked))
        exact ⟨noted, fun pair mem same => absurd same (apart pair mem)⟩
    exact ⟨moved.noted, moved.writes, moved.reads⟩
  | substituted substituted =>
    obtain ⟨values, start, _, _, isConstants⟩ := substituted.values
    refine stems_of_replace substituted.side stems visits.member found (intact substituted.side)
      substituted.replaced fun i r isRegister => ?_
    have isOwn : origin.Own r := by
      unfold constantsFrom at isConstants
      split at isConstants
      · cases isConstants
        obtain ⟨_, _, rfl⟩ := mem_map.mp (mem_of_getElem? isRegister)
        intro virt
        cases virt
      · cases isConstants
    obtain ⟨noted, apart⟩ := known r isOwn
    exact ⟨noted, fun pair mem same => absurd same (apart pair mem)⟩
  | copiedIn side replaced _ supplies =>
    refine stems_of_replace side stems visits.member found (intact side) replaced
      fun i r isRegister => ?_
    obtain ⟨op, isOperand, inside⟩ := supplies.of_place isRegister
    obtain ⟨noted, v⟩ := supplies.of_pair visits.grounded own grown keeps inside
    exact ⟨noted, fun pair mem same => isOperand.trans (congrArg some (v pair mem same).symm)⟩
  | copiedOut side replaced supplies =>
    have written := isWritten_of_mem (progress.listed run mem_cons_self) side
    cases written.operands_eq.symm.trans found
    obtain ⟨_, rfl⟩ := written.replace_eq_ok.mp replaced
    have taken := supplies.takes own
    refine ⟨fun op inside => ?_, fun dest inside => ?_, stems.reads⟩
    · rcases mem_append.mp inside with isDest | isSource
      · obtain ⟨i, isRegister⟩ := getElem?_of_mem isDest
        obtain ⟨_, _, isPair⟩ := supplies.of_place isRegister
        exact (supplies.of_pair visits.grounded own grown keeps isPair).1
      · exact stems.noted op (mem_append_right _ isSource)
    · obtain ⟨i, isRegister⟩ := getElem?_of_mem inside
      obtain ⟨op, isOperand, isPair⟩ := supplies.of_place isRegister
      rcases supplies.each _ isPair with kept | ⟨isSource, _⟩ | isPlaced | impossible
      · cases kept
        exact stems.writes dest (mem_of_getElem? isOperand)
      · cases side.symm.trans isSource
      · obtain ⟨new, _, apart⟩ := taken.of_placed visits.grounded grown keeps isPlaced
        exact ⟨apart, fun isOwn => absurd isOwn new⟩
      · cases impossible

theorem Mends.of_made {copy : Instruction}
    (mends : Mends setting walk run cur ops next placed hoists made ch post) (mem : copy ∈ made) :
    (∀ dest ∈ copy.dests, ∃ pair ∈ placed, pair.2 = dest) ∧
      ∀ source ∈ copy.sources, ∃ pair ∈ placed, pair.1 = source := by
  cases mends with
  | fits | reordered _ | substituted _ | copiedOut _ _ _ => cases mem
  | copiedIn _ _ copied _ => exact copied.of_made mem

section

variable (visits : Visits origin base blk k walk scene orig cur pending)

include visits

/-- The copies behind an instruction put back what the original instruction writes. -/
theorem Visits.returns {copy : PendingCopy} (progress : Progress orig cur pending (run :: runs))
    (found : run.operands cur = .ok ops)
    (mends : Mends ⟨spec.target, options, level⟩ walk run cur ops next placed hoists made ch post)
    (grown : next ≤ after.program.nextTemp) (keeps : walk.program.Keeps after.program)
    (mem : copy ∈ post) : origin.Returns after.program (scene.copies ++ hoists) blk copy := by
  have own := progress.own visits.member found
  cases mends with
  | fits | reordered _ | substituted _ | copiedIn _ _ _ _ => cases mem
  | copiedOut side replaced supplies =>
    have written := isWritten_of_mem (progress.listed run mem_cons_self) side
    cases written.operands_eq.symm.trans found
    have isPlaced : copy.pair ∈ post.map (·.pair) := mem_map_of_mem mem
    obtain ⟨new, noted, apart⟩ :=
      (supplies.takes own).of_placed visits.grounded grown keeps isPlaced
    have inside := (of_mem_zip (supplies.vacant _ isPlaced).1).1
    exact ⟨⟨_, visits.member, (progress.opens_of_dest side).dests _ inside⟩, ⟨new, noted⟩, apart⟩

/-- A run is handled, and the visit goes on. -/
theorem Visits.mends (progress : Progress orig cur pending (run :: runs))
    (found : run.operands cur = .ok ops)
    (mends : Mends ⟨spec.target, options, level⟩ walk run cur ops next placed hoists
      (lines.map Prod.snd) ch post) (grown : next ≤ after.program.nextTemp)
    (extends' : walk.Extends after) (gains : walk.Gains placed hoists after)
    (reworks : walk.program.Reworks origin.order scene.code blk (scene.front ++ lines ++
      (k, ch) :: (post.map PendingCopy.line ++
        (pending.map PendingCopy.line ++ scene.todo))) (hoists.map hoistedMove) after.program
      code') : Visits origin base blk k after
      ⟨⟨scene.copies ++ hoists, code'⟩, scene.before, scene.front ++ lines, scene.todo⟩ orig
      ch (pending ++ post) := by
  have takes := mends.takes (progress.own visits.member found)
  have later := extends'.keeps.nextTemp
  have order : post.map PendingCopy.line ++ (pending.map PendingCopy.line ++ scene.todo) =
      (pending ++ post).map PendingCopy.line ++ scene.todo := by
    cases side : run.side with
    | source =>
      rw [mends.behind_of_source side, append_nil]
      rfl
    | dest =>
      rw [(progress.opens_of_dest side).pending]
      rfl
  refine ⟨visits.grounded.gains takes grown extends' gains,
    visits.derives.reworks visits.grounded.keeps reworks later takes.fresh, order ▸ reworks.here,
    visits.source, fun line mem => ?_,
    visits.stems_changed progress found mends grown extends'.keeps, fun copy mem => ?_,
    fun copy mem => ?_⟩
  · rcases mem_append.mp mem with old | new
    · exact (visits.front line old).grow later takes.fresh
    · obtain ⟨dests, sources⟩ := mends.of_made (mem_map_of_mem new)
      exact takes.stems visits.grounded grown extends'.keeps dests sources
  · rcases mem_append.mp mem with old | new
    · exact (visits.pending copy old).grow later takes.fresh
    · exact visits.returns progress found mends grown extends'.keeps new
  · obtain ⟨returns, inside⟩ := visits.deferred copy (gains.deferred copy mem)
    exact ⟨returns.grow later takes.fresh, mem_append_left _ inside⟩

/-- Only lines of the block change. -/
theorem Visits.becomes (extends' : walk.Extends after) (gains : walk.Gains [] [] after)
    (reworks : walk.program.Reworks origin.order scene.code blk lines [] after.program code') :
    Grounded origin scene.copies after ∧
      Derives origin base blk after.program scene.copies code' := by
  have takes := takes_nil origin walk cur walk.program.nextTemp
  have later := extends'.keeps.nextTemp
  have grounded := visits.grounded.gains takes later extends' gains
  have derives := visits.derives.reworks visits.grounded.keeps reworks later takes.fresh
  rw [append_nil] at grounded derives
  exact ⟨grounded, derives⟩

/-- A sample is narrowed, and the visit starts over. -/
theorem Visits.narrows {narrowed : Instruction} (progress : Progress orig cur pending (run :: runs))
    (relaxes : MachineSpec.relax cur run = .ok (some (.narrow narrowed)))
    (extends' : walk.Extends after) (gains : walk.Gains [] [] after)
    (reworks : walk.program.Reworks origin.order scene.code blk
      (scene.front ++ (k, narrowed) :: (pending.map PendingCopy.line ++ scene.todo)) []
      after.program code') :
    Visits origin base blk k after { scene with code := code' } orig narrowed pending ∧
      Opens orig narrowed pending := by
  obtain ⟨⟨_, side⟩, _, _, sources, fewer⟩ := relax_eq_narrow relaxes
  have dests : ∀ dest ∈ narrowed.dests, dest ∈ cur.dests := fun _ inside => fewer.subset inside
  have opens := progress.opens_of_dest side
  have later := extends'.keeps.nextTemp
  obtain ⟨grounded, derives⟩ := visits.becomes extends' gains reworks
  refine ⟨⟨grounded, derives, reworks.here, visits.source, fun line mem =>
    (visits.front line mem).mono later, ?_, fun copy mem =>
    (visits.pending copy mem).mono later, fun copy mem => ?_⟩, opens.pending,
    sources.trans opens.sources, fun dest inside => opens.dests dest (dests dest inside)⟩
  · have stems := visits.stems.mono later
    refine ⟨fun op inside => stems.noted op ?_, fun dest inside =>
      stems.writes dest (dests dest inside), fun i pair mem atPlace => ?_⟩
    · rcases mem_append.mp inside with isDest | isSource
      · exact mem_append_left _ (dests op isDest)
      · exact mem_append_right _ (sources ▸ isSource)
    · exact stems.reads i pair mem (sources ▸ atPlace)
  · obtain ⟨returns, inside⟩ := visits.deferred copy (gains.deferred copy mem)
    exact ⟨returns.mono later, inside⟩

end

/-- A copy that is expanded still reads what the original instruction reads. -/
theorem Progress.own_sources (progress : Progress orig cur pending (run :: runs))
    (mem : (k, orig) ∈ origin.code blk) (found : run.operands cur = .ok ops)
    (opcode : cur.opcode = .vmov ∨ cur.opcode = .pack) :
    ∀ source ∈ cur.sources, origin.Own source := by
  intro source inside
  cases side : run.side with
  | dest =>
    rw [(progress.opens_of_dest side).sources] at inside
    exact origin.noted blk _ mem source (mem_append_right _ inside)
  | source =>
    refine progress.own mem found source ?_
    have read := isRead_of_mem (progress.listed run mem_cons_self) side
    cases read with
    | copied _ =>
      have whole : (sources 0 cur.sources.length none).operands cur = .ok cur.sources :=
        operands_eq_ok.mpr ⟨[], [], ⟨(append_nil _).symm, rfl, rfl⟩⟩
      cases whole.symm.trans found
      exact inside
    | sampled isCode | left isCode | right isCode =>
      rcases opcode with is | is <;> cases is.symm.trans isCode

/-- A copy is expanded into moves, which the walk visits next. -/
theorem Visits.expands (visits : Visits origin base blk k walk scene orig cur pending)
    (progress : Progress orig cur pending (run :: runs)) (found : run.operands cur = .ok ops)
    (relaxes : MachineSpec.relax cur run = .ok (some (.expand (lines.map Prod.snd))))
    (extends' : walk.Extends after) (gains : walk.Gains [] [] after)
    (reworks : walk.program.Reworks origin.order scene.code blk
      (scene.front ++ lines ++ (pending.map PendingCopy.line ++ scene.todo)) [] after.program
      code') : Stands origin base blk { after with deferred := after.deferred ++ pending }
      { scene with code := code', before := scene.before ++ [(k, orig)] }
      (lines ++ pending.map PendingCopy.line) := by
  obtain ⟨opcode, _, sequence⟩ := relax_eq_expand relaxes
  have later := extends'.keeps.nextTemp
  obtain ⟨grounded, derives⟩ := visits.becomes extends' gains reworks
  have stems := visits.stems.mono later
  have returns : ∀ copy ∈ pending, origin.Returns after.program scene.copies blk copy :=
    fun copy mem => (visits.pending copy mem).mono later
  have moves : ∀ line ∈ lines, ∃ dest ∈ cur.dests, ∃ source ∈ cur.sources,
      line.2 = .move dest source := by
    intro line mem
    have inside : line.2 ∈ lines.map Prod.snd := mem_map_of_mem mem
    rw [sequence] at inside
    obtain ⟨i, atPlace⟩ := getElem?_of_mem inside
    obtain ⟨dest, source, isDest, isSource, isMove⟩ := getElem?_zipWith_eq_some.mp atPlace
    exact ⟨dest, mem_of_getElem? isDest, source, mem_of_getElem? isSource, isMove.symm⟩
  refine ⟨⟨grounded.sound, grounded.keeps, grounded.hoisted, grounded.aware.knows,
    grounded.aware.table⟩, derives, ?_, ?_, fun line mem => ?_, fun line mem => ?_,
    fun copy mem => ?_⟩
  · refine reworks.here.trans ?_
    simp only [append_assoc]
  · refine visits.source.trans ?_
    simp only [append_assoc, singleton_append]
  · rcases mem_append.mp mem with old | new
    · exact (visits.front line old).mono later
    · rcases mem_append.mp new with isMove | isCopy
      · obtain ⟨dest, isDest, source, isSource, isLine⟩ := moves line isMove
        refine Origin.stems_of_own grounded.hoisted ?_ ?_ ?_
        · rw [isLine]
          intro op inside
          rcases mem_cons.mp inside with rfl | inside
          · exact stems.noted op (mem_append_left _ isDest)
          · rw [mem_singleton.mp inside]
            exact stems.noted source (mem_append_right _ isSource)
        · rw [isLine]
          intro one inside
          rw [mem_singleton.mp inside]
          exact stems.writes dest isDest
        · rw [isLine]
          intro one inside
          rw [mem_singleton.mp inside]
          exact progress.own_sources visits.member found opcode source isSource
      · obtain ⟨copy, inside, rfl⟩ := mem_map.mp isCopy
        exact (returns copy inside).stems grounded.hoisted grounded.keeps.nextTemp
  · rcases mem_append.mp mem with isMove | isCopy
    · obtain ⟨dest, _, source, _, isLine⟩ := moves line isMove
      rw [isLine]
      rfl
    · obtain ⟨copy, _, rfl⟩ := mem_map.mp isCopy
      rfl
  · rcases mem_append.mp mem with old | new
    · obtain ⟨returned, inside⟩ := visits.deferred copy (gains.deferred copy old)
      exact ⟨returned.mono later, mem_append_left _ inside⟩
    · refine ⟨returns copy new, mem_append_right _ (mem_append_right _ ?_)⟩
      exact mem_map_of_mem new

/-! ### The end of a visit -/

theorem Grounded.learns {pairs : List (Register × Register)}
    (grounded : Grounded origin copies walk) (learns : Learns walk written pairs false after)
    (new : ∀ pair ∈ pairs, origin.Own pair.1 ∧ ¬ origin.Own pair.2 ∧ walk.program.Noted pair.2 ∧
      ∀ copy ∈ copies, copy.2 ≠ pair.2) : Grounded origin copies after := by
  have prog := learns.program
  refine ⟨learns.sound, prog ▸ grounded.keeps, prog ▸ grounded.hoisted,
    fun v dest owned known => ?_, fun pair mem =>
    grounded.aware.table pair (learns.hoisted pair mem)⟩
  rw [prog]
  rcases learns.knows v dest owned known with ⟨old, _⟩ | ⟨isOwned, paired⟩
  · exact grounded.aware.knows v dest owned old
  · obtain ⟨own, taken, noted, apart⟩ := new _ paired
    exact ⟨own, taken, noted, fun copy mem same => absurd same (apart copy mem)⟩

theorem Grounded.returns {returned : List PendingCopy} (grounded : Grounded origin copies walk)
    (returns : ∀ copy ∈ returned, origin.Returns walk.program copies blk copy)
    (learns : Learns walk written (returned.map (·.pair)) false after) :
    Grounded origin copies after := by
  refine grounded.learns learns fun pair mem => ?_
  obtain ⟨copy, inside, rfl⟩ := mem_map.mp mem
  have returned := returns copy inside
  exact ⟨returned.writes.own, returned.taken.1, returned.taken.2, returned.apart⟩

/-- When all runs of an instruction hold, the walk goes on with the next line of the origin. -/
theorem Visits.concludes {next : Option InstructionId}
    (visits : Visits origin base blk k walk scene orig cur pending)
    (ran : (conclude setting place k pending).Yields walk next after) :
    Learns walk (cur.dests ++ pending.map (·.value))
        (pending.map (·.pair)) false after ∧
      Stands origin base blk after { scene with
        before := scene.before ++ [(k, orig)]
        front := scene.front ++ (k, cur) :: pending.map PendingCopy.line } [] ∧
      next = scene.todo.head?.map Prod.fst := by
  have shown := visits.derives.shown
  obtain ⟨copies, waiting, learns, isNext, _⟩ :=
    conclude_yields visits.grounded.sound visits.found ran
  -- A copy that waits stands in front of the instruction, so the walk has passed it.
  have none : copies = [] := by
    refine eq_nil_iff_forall_not_mem.mpr fun copy mem => ?_
    obtain ⟨isDeferred, isKey⟩ := waiting copy mem
    have inside := (visits.deferred copy isDeferred).2
    have listed : copy.line ∈ scene.code blk := by
      rw [visits.here]
      exact mem_append_left _ inside
    exact (shown.key_unique visits.here listed isKey).2.1 inside
  rw [none, nil_append] at learns
  have prog := learns.program
  refine ⟨learns, ⟨visits.grounded.returns visits.pending learns, prog ▸ visits.derives, ?_, ?_,
    fun line mem => ?_, forall_mem_nil _,
    fun copy mem => ?_⟩, ?_⟩
  · refine visits.here.trans ?_
    simp only [append_nil, append_assoc, cons_append]
  · refine visits.source.trans ?_
    simp only [append_assoc, singleton_append]
  · rw [prog]
    rw [append_nil] at mem
    rcases mem_append.mp mem with old | new
    · exact visits.front line old
    · rcases mem_cons.mp new with rfl | isCopy
      · exact visits.stems
      · obtain ⟨copy, inside, rfl⟩ := mem_map.mp isCopy
        exact (visits.pending copy inside).stems visits.grounded.hoisted
          visits.grounded.keeps.nextTemp
  · obtain ⟨returns, inside⟩ := visits.deferred copy (learns.deferred copy mem)
    exact ⟨prog ▸ returns, mem_append_left _ (mem_append_left _ inside)⟩
  · exact (Except.ok.inj ((nextOf_behind shown visits.here).symm.trans isNext)).symm

/-- A line without runs is left as it is. Copies that wait for it are put back by it. -/
theorem Stands.concludes {next : Option InstructionId} {inst : Instruction}
    (stands : Stands origin base blk walk scene ((k, inst) :: plain))
    (ran : (conclude setting place k []).Yields walk next after) : ∃ copies : List PendingCopy,
      (∀ copy ∈ copies, origin.Returns walk.program scene.copies blk copy ∧
        inst = .move copy.value copy.holder) ∧ Learns walk (inst.dests ++ copies.map (·.value))
        (copies.map (·.pair)) false after ∧
      Stands origin base blk after { scene with front := scene.front ++ [(k, inst)] } plain ∧
      next = (plain ++ scene.todo).head?.map Prod.fst := by
  have shown := stands.derives.shown
  have split : scene.code blk = scene.front ++ (k, inst) :: (plain ++ scene.todo) := by
    rw [stands.here, append_assoc, cons_append]
  have lines : (scene.front ++ [(k, inst)]) ++ plain =
      scene.front ++ (k, inst) :: plain := append_cons .. |>.symm
  obtain ⟨copies, waiting, learns, isNext, _⟩ :=
    conclude_yields stands.grounded.sound (shown.instruction_of_split split) ran
  rw [append_nil] at learns
  have prog := learns.program
  have each : ∀ copy ∈ copies, origin.Returns walk.program scene.copies blk copy ∧
      inst = .move copy.value copy.holder := by
    intro copy mem
    obtain ⟨isDeferred, isKey⟩ := waiting copy mem
    obtain ⟨returns, inside⟩ := stands.deferred copy isDeferred
    have listed : copy.line ∈ scene.code blk := by
      rw [stands.here]
      exact mem_append_left _ inside
    have found := shown.stored blk copy.line listed
    rw [show copy.line.1 = k from isKey, shown.stored blk (k, inst) (by simp [split])] at found
    exact ⟨returns, Option.some.inj found⟩
  refine ⟨copies, each, learns, ⟨stands.grounded.returns (fun copy mem => (each copy mem).1) learns,
      prog ▸ stands.derives, ?_, stands.source, ?_, fun line mem =>
      stands.bare line (mem_cons_of_mem _ mem), fun copy mem => ?_⟩,
    (Except.ok.inj ((shown.nextOf_eq split).symm.trans isNext)).symm⟩
  · refine stands.here.trans ?_
    rw [← lines]
  · rw [prog, lines]
    exact stands.stems
  · rw [prog, lines]
    exact stands.deferred copy (learns.deferred copy mem)

end Walk

end RegisterChains

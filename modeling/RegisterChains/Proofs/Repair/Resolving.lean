/-
This file carries the lines of a program, and what they do, through whole walks. A visit ends
between two lines, and the walk over a block ends behind its last line; then the block does what it
did before the walk. Blocks are walked over one after the other, and a copy in the preamble does not
concern the blocks that are finished.
-/

import RegisterChains.Proofs.Repair.Meaning

namespace RegisterChains

open List

variable {blocks : List BlockId}

/-- Something that holds of every arithmetic, if the walk starts from regular lines. -/
def Origin.Ensures (origin : Origin) (spec : MachineSpec) (holds : Arithmetic → Prop) : Prop :=
  origin.Regular spec → ∀ arith : Arithmetic, arith.Holds spec → holds arith

namespace Walk

variable {origin : Origin} {spec : MachineSpec} {options : Options} {level : Option Level}
  {place : UInt32} {k : InstructionId} {run : OperandRun} {runs : List OperandRun}
  {walk after : Walk}
  {base : Stage} {blk : BlockId} {ops : List Register} {orig cur inst : Instruction}
  {pending : List PendingCopy} {scene : Scene} {next : Option InstructionId}

/-! ### Visits -/

/-- An instruction of the origin is about to be handled. -/
def Opening (origin : Origin) (spec : MachineSpec) (base : Stage) (blk : BlockId)
    (k : InstructionId) (walk : Walk) (pending : List PendingCopy) : Prop :=
  ∃ scene orig cur, Visits origin base blk k walk scene orig cur pending ∧
    Opens orig cur pending ∧ (origin.Regular spec → cur = orig) ∧
    origin.Ensures spec fun arith =>
      Visits.Follows arith origin walk scene orig cur pending

/-- Some runs of an instruction of the origin are left to handle. -/
def Handling (origin : Origin) (spec : MachineSpec) (base : Stage) (blk : BlockId)
    (k : InstructionId) (walk : Walk) (pending : List PendingCopy) (runs : List OperandRun) :
    Prop :=
  ∃ scene orig cur, Visits origin base blk k walk scene orig cur pending ∧
    Progress orig cur pending runs ∧
    (origin.Regular spec → (∀ run ∈ runs, run.side = .source) ∨ cur = orig) ∧
    origin.Ensures spec fun arith =>
      Visits.Follows arith origin walk scene orig cur pending

/-- The walk goes on between two lines. -/
def Between (origin : Origin) (spec : MachineSpec) (base : Stage) (blk : BlockId) (walk : Walk)
    (next : Option InstructionId) : Prop :=
  ∃ scene plain, Stands origin base blk walk scene plain ∧
    next = (plain ++ scene.todo).head?.map Prod.fst ∧
    origin.Ensures spec fun arith => Stands.Follows arith origin walk scene plain

/-- One run is handled. -/
theorem Handling.handled {fix : RunFix} (body : blk ∈ origin.order)
    (handling : Handling origin spec base blk k walk pending (run :: runs))
    (isInst : walk.program.instruction k = .ok inst) (found : run.operands inst = .ok ops)
    (handled : Handled ⟨spec.target, options, level⟩ place k run walk inst ops fix after) :
    fix.Leaves (Opening origin spec base blk k after pending)
      (fun copies => Handling origin spec base blk k after (pending ++ copies) runs)
      (Between origin spec base blk { after with deferred := after.deferred ++ pending }) := by
  obtain ⟨scene, orig, cur, visits, progress, untouched, ensures⟩ := handling
  cases isInst.symm.trans visits.found
  have extends' := handled.extends visits.grounded.sound
  have goes := handled.mends visits.grounded.sound visits.derives.shown body visits.here found
  refine goes.imp ?_ ?_ ?_
  · rintro ⟨narrowed, code', relaxes, gains, reworks⟩
    obtain ⟨visits', opens⟩ := visits.narrows progress relaxes extends' gains reworks
    -- A regular sample has not changed before its destinations are handled.
    have no : ¬ origin.Regular spec := by
      intro regular
      rcases untouched regular with sources | rfl
      · cases (sources run mem_cons_self).symm.trans (MachineSpec.relax_eq_narrow relaxes).1.2
      · exact relax_ne_narrow (regular.lines blk body _ visits.member) narrowed relaxes
    exact ⟨_, _, _, visits', opens, fun regular => absurd regular no,
      fun regular => absurd regular no⟩
  · rintro copies
      ⟨next, placed, hoists, lines, ch, code', grown, mends, gains, reworks, _, differs, _⟩
    have visits' := visits.mends progress found mends grown extends' gains reworks
    refine ⟨_, _, _, visits', progress.handled differs _, fun _ => .inl progress.tail,
      fun regular arith holds => (ensures regular arith holds).mends regular holds body
        visits ?_ progress found mends differs.runs grown extends'.keeps gains visits' rfl rfl rfl⟩
    intro side
    rcases untouched regular with sources | same
    · cases (sources run mem_cons_self).symm.trans side
    · exact same
  · rintro resume ⟨lines, code', relaxes, gains, reworks, _, isResume⟩
    refine ⟨_, _, visits.expands progress found relaxes extends' gains reworks, ?_,
      fun regular arith holds => (ensures regular arith holds).expands
        (regular.lines blk body _ visits.member) visits relaxes gains⟩
    rw [isResume, append_assoc]

/-- What is kept while an instruction of the origin is visited. -/
def handlesRuns (body : blk ∈ origin.order) (spec : MachineSpec) (base : Stage)
    (options : Options) (level : Option Level) (place : UInt32) (k : InstructionId) :
    Invariant ⟨spec.target, options, level⟩ place k where
  before := Opening origin spec base blk k
  during := Handling origin spec base blk k
  gone walk pending :=
    Between origin spec base blk { walk with deferred := walk.deferred ++ pending }
  begins := by
    rintro walk pending inst ⟨scene, orig, cur, visits, opens, untouched, ensures⟩ found
    cases found.symm.trans visits.found
    exact ⟨scene, orig, inst, visits, runsInOrder_eq spec inst ▸ opens.progress,
      fun regular => .inr (untouched regular), ensures⟩
  step handling found isOperands handled _ := handling.handled body found isOperands handled

/-- A line without runs is concluded at once. -/
theorem visit_of_bare (found : walk.program.instruction k = .ok inst)
    (bare : MachineSpec.runs inst = [])
    (ran : (visit ⟨spec.target, options, level⟩ place k).Yields walk next after) :
    (conclude ⟨spec.target, options, level⟩ place k []).Yields walk next after := by
  let rests : Invariant ⟨spec.target, options, level⟩ place k :=
    { before := fun other pending => other = walk ∧ pending = []
      during := fun other pending runs => other = walk ∧ pending = [] ∧ runs = []
      gone := fun _ _ _ => False
      begins := by
        rintro _ _ _ ⟨rfl, rfl⟩ found'
        cases found.symm.trans found'
        exact ⟨rfl, rfl, (runsInOrder_eq spec inst).trans bare⟩
      step := by
        rintro _ _ _ _ _ _ _ _ ⟨_, _, no⟩
        cases no }
  obtain ⟨mid, copies, ⟨rfl, rfl, _⟩, concludes⟩ | ⟨_, _, no, _⟩ := rests.visit ⟨rfl, rfl⟩ ran
  · exact concludes
  · cases no

/-- A visit leads from one line to the next. -/
theorem Between.visit (body : blk ∈ origin.order)
    (between : Between origin spec base blk walk (some k))
    (ran : (visit ⟨spec.target, options, level⟩ place k).Yields walk next after) :
    Between origin spec base blk after next := by
  obtain ⟨scene, plain, stands, isKey, ensures⟩ := between
  cases plain with
  | nil =>
    obtain ⟨orig, todo, head⟩ : ∃ orig todo, scene.todo = (k, orig) :: todo := by
      cases lines : scene.todo with
      | nil =>
        rw [lines] at isKey
        cases isKey
      | cons line todo =>
        rw [lines] at isKey
        cases isKey
        exact ⟨line.2, todo, rfl⟩
    have visits := stands.visits head
    have opening : Opening origin spec base blk k walk [] :=
      ⟨_, orig, orig, visits, opens_self orig, fun _ => rfl,
        fun regular arith holds => (ensures regular arith holds).visits
          (regular.lines blk body _ visits.member) stands head⟩
    obtain ⟨mid, copies, ⟨_, _, _, visits', progress, _, ensures'⟩, concludes⟩ |
      ⟨mid, copies, between, rfl⟩ :=
      (handlesRuns body spec base options level place k).visit opening ran
    · obtain ⟨learns, stands', isNext⟩ := visits'.concludes concludes
      exact ⟨_, [], stands', isNext, fun regular arith holds =>
        (ensures' regular arith holds).concludes
          (regular.lines blk body _ visits'.member) visits' learns⟩
    · exact between
  | cons line plain =>
    obtain ⟨first, inst⟩ := line
    obtain rfl : k = first := Option.some.inj isKey
    have split : scene.code blk = scene.front ++ (k, inst) :: (plain ++ scene.todo) := by
      rw [stands.here, append_assoc, cons_append]
    have concludes := visit_of_bare (stands.derives.shown.instruction_of_split split)
      (stands.bare _ mem_cons_self) ran
    obtain ⟨copies, moves, learns, stands', isNext⟩ := stands.concludes concludes
    exact ⟨_, plain, stands', isNext, fun regular arith holds =>
      (ensures regular arith holds).concludes regular body moves learns⟩

end Walk

/-! ### Whole programs -/

namespace Pass

open Walk

variable {origin : Origin} {spec : MachineSpec} {options : Options} {level : Option Level}
  {pass after : Pass} {done : List BlockId} {blk : BlockId} {stage : Stage}

/-- A program that stems from an origin, of which some blocks have been walked over. These do what
they did in the origin. -/
structure Derived (origin : Origin) (spec : MachineSpec) (done : List BlockId) (pass : Pass)
    (stage : Stage) : Prop where
  sound : pass.graph.Sound
  unmarked : Tracking.Unmarked pass.graph
  keeps : origin.program.Keeps pass.program
  hoisted : origin.Hoists pass.program stage.copies
  table : ∀ pair ∈ pass.hoisted.pairs, pair ∈ stage.copies
  shown : pass.program.Shows origin.order stage.code
  preamble : ∀ preamble, origin.program.preamble = some preamble →
    (stage.code preamble).map Prod.snd =
      (origin.code preamble).map Prod.snd ++ stage.copies.map hoistedMove
  stems : ∀ block ∈ origin.order, ∀ line ∈ stage.code block,
    origin.Stems pass.program stage.copies block line
  later : ∀ block ∈ origin.order, block ∉ done → stage.code block = origin.code block
  follows : origin.Ensures spec fun arith => ∀ block ∈ done, ∀ contents other,
    origin.Agrees contents other → arith.Held stage.copies other →
      origin.Agrees (arith.execute (origin.code block) contents)
        (arith.execute (stage.code block) other)

/-- A block is about to be walked over. -/
theorem Derived.between (pos : Position origin.order done blk)
    (derived : Derived origin spec done pass stage) :
    Between origin spec stage blk ⟨pass, .empty blk, []⟩ ((stage.code blk).head?.map Prod.fst) := by
  have empty : ∀ v dest owned, ¬ (⟨pass, .empty blk, []⟩ : Walk).tracking.Knows v dest owned := by
    rintro v dest owned ⟨_, _, no, _⟩
    cases no
  have code := derived.later blk pos.body pos.apart
  refine ⟨⟨stage, [], [], origin.code blk⟩, [], ⟨⟨Tracking.sound_empty derived.sound
    derived.unmarked blk, derived.keeps, derived.hoisted, ⟨fun v dest owned known =>
    absurd known (empty v dest owned), derived.table⟩⟩, ⟨derived.shown, derived.preamble,
    fun one inside _ => derived.stems one inside, fun _ _ _ => rfl, fun _ mem => mem⟩,
    code, rfl, ?_, ?_, ?_⟩, ?_, ?_⟩
  · intro _ no
    cases no
  · intro _ no
    cases no
  · intro _ no
    cases no
  · rw [code]
    rfl
  · intro _ arith _ cs one agrees _
    exact ⟨agrees, fun v dest owned known => absurd known (empty v dest owned)⟩

theorem resolveBlock_derives (pos : Position origin.order done blk)
    (derived : Derived origin spec done pass stage)
    (ran : (resolveBlock ⟨spec.target, options, level⟩ blk).Yields pass () after) :
    ∃ stage', Derived origin spec (blk :: done) after stage' := by
  have extends' := resolveBlock_extends derived.sound derived.unmarked ran
  obtain ⟨first, walked, finished, isFirst, visits, finishes, rfl⟩ := resolveBlock_yields ran
  obtain ⟨_, rfl⟩ := derived.shown.arranged.firstOf_eq.mp isFirst
  have begins := derived.between pos
  rw [← head?_map] at begins
  obtain ⟨scene, plain, stands, ended, ensures⟩ := visitFrom_keeps
    (Between origin spec stage blk) (fun between visits => between.visit pos.body visits)
    begins visits
  obtain ⟨_, _, prog, hoisted⟩ := finish_extends stands.grounded.sound finishes
  obtain ⟨rfl, isEnd⟩ := append_eq_nil_iff.mp
    (head?_eq_none_iff.mp (Option.map_eq_none_iff.mp ended.symm))
  have here : scene.code blk = scene.front := by
    rw [stands.here, isEnd, append_nil, append_nil]
  have source : origin.code blk = scene.before := by
    rw [stands.source, isEnd, append_nil]
  have derives := stands.derives
  refine ⟨scene.toStage, extends'.refines.sound, extends'.unmarked,
    prog ▸ stands.grounded.keeps, prog ▸ stands.grounded.hoisted,
    hoisted ▸ stands.grounded.aware.table, prog ▸ derives.shown, derives.preamble,
    fun one inside line mem => ?_, fun one inside remaining => ?_,
    fun regular arith holds one mem cs one' agrees held => ?_⟩
  · rw [prog]
    by_cases same : one = blk
    · cases same
      refine stands.stems line ?_
      rwa [append_nil, ← here]
    · exact derives.stems one inside same line mem
  · obtain ⟨ne, notDone⟩ := not_or.mp (mt mem_cons.mpr remaining)
    exact (derives.elsewhere one inside ne).trans (derived.later one inside notDone)
  · rcases mem_cons.mp mem with rfl | isDone
    · have agrees' := (ensures regular arith holds cs one' agrees held).1
      rwa [append_nil, ← here, ← source] at agrees'
    · have ne : one ≠ blk := fun same => pos.apart (same ▸ isDone)
      rw [derives.elsewhere one (pos.behind one isDone) ne]
      exact derived.follows regular arith holds one isDone cs one' agrees
        fun pair inside => held pair (derives.grows pair inside)

end Pass

/-- The lines of a program whose registers are in use. -/
def Program.Shows.origin {prog : Program} {order : List BlockId} {code : BlockId → List Line}
    (shown : prog.Shows order code) (closed : prog.Closed) : Origin where
  program := prog
  order := order
  code := code
  shown := shown
  noted blk line mem := closed.operands line.1 line.2 (shown.stored blk line mem)

namespace Program

variable {spec : MachineSpec} {options : Options} {level : Option Level}
  {allowed : Instruction → Prop} {prog after : Program} {resolution : Resolution}
  {seeded walked : Pass} {order : List BlockId} {code : BlockId → List Line}

/-- The instructions along some blocks of the body. -/
theorem Shows.path_eq (shown : prog.Shows order code) (body : ∀ blk ∈ blocks, blk ∈ order) :
    prog.path blocks =
      .ok (((prog.preamble.toList ++ blocks).flatMap code).map Prod.snd) := by
  have listed : (prog.preamble.toList ++ blocks).mapM prog.instructionsOf =
      .ok ((prog.preamble.toList ++ blocks).map fun blk => (code blk).map Prod.snd) := by
    rw [except_mapM_eq_ok, forall₂_map_right_iff, forall₂_same]
    intro blk mem
    rcases mem_append.mp mem with isPreamble | inside
    · exact shown.instructionsOf_preamble (Option.mem_toList.mp isPreamble)
    · exact shown.instructionsOf_body (body blk inside)
  refine except_bind_eq_ok.mpr ⟨_, listed, ?_⟩
  rw [except_pure_eq_ok, map_flatMap, flatMap_def]

/-- The walk over the body of a seeded program. -/
theorem Resolves.derives
    (resolves : Resolves ⟨spec.target, options, level⟩ prog seeded walked resolution after)
    (built : prog.Built allowed) (shown : seeded.program.Shows order code)
    (closed : seeded.program.Closed) :
    ∃ stage, Pass.Derived (shown.origin closed) spec (order.reverse ++ []) walked stage := by
  obtain ⟨consistent, _, hoisted, _⟩ := Seeding.seedAll_yields built.closed resolves.seeds
  have walks := resolves.walks
  rw [shown.blocks_eq] at walks
  have start : Pass.Derived (shown.origin closed) spec [] seeded ⟨[], code⟩ := by
    refine ⟨consistent.pinned.sound, consistent.pinned.unmarked, .refl _, Origin.hoists_nil _ _,
      ?_, shown, fun _ _ => (append_nil _).symm, fun blk _ line mem =>
      (Origin.hoists_nil _ _).stems (UInt32.le_refl _) mem, fun _ _ _ => rfl,
      fun _ _ _ _ no => absurd no not_mem_nil⟩
    intro pair mem
    rw [hoisted] at mem
    cases mem
  exact Pass.resolveBlocks_keeps
    (fun done pass => ∃ stage, Pass.Derived (shown.origin closed) spec done pass stage)
    (fun pos ⟨_, derived⟩ resolves => Pass.resolveBlock_derives pos derived resolves)
    shown.arranged.orderNodup (fun _ mem => mem) ⟨_, start⟩ walks

end Program

/-- The instructions of the preamble of an origin. -/
def Origin.prelude (origin : Origin) : List Instruction :=
  (origin.program.preamble.toList.flatMap origin.code).map Prod.snd

theorem Origin.path_eq (origin : Origin) (body : ∀ blk ∈ blocks, blk ∈ origin.order) :
    origin.program.path blocks =
      .ok (origin.prelude ++ (blocks.flatMap origin.code).map Prod.snd) := by
  rw [origin.shown.path_eq body, flatMap_append, map_append]
  rfl

/-- A walk changes the preamble by the copies that it makes there. -/
theorem Pass.Derived.path_eq {origin : Origin} {spec : MachineSpec} {done : List BlockId}
    {pass : Pass} {stage : Walk.Stage} (derived : Derived origin spec done pass stage)
    (body : ∀ blk ∈ blocks, blk ∈ origin.order) :
    pass.program.path blocks = .ok (origin.prelude ++ stage.copies.map Walk.hoistedMove ++
      (blocks.flatMap stage.code).map Prod.snd) := by
  have prelude : (pass.program.preamble.toList.flatMap stage.code).map Prod.snd =
      origin.prelude ++ stage.copies.map Walk.hoistedMove := by
    unfold Origin.prelude
    rw [derived.keeps.preamble]
    cases isPreamble : origin.program.preamble with
    | none =>
      have none : stage.copies = [] := by
        refine eq_nil_iff_forall_not_mem.mpr fun pair mem => ?_
        obtain ⟨_, _, present⟩ := derived.hoisted.values pair mem
        rw [isPreamble] at present
        cases present
      rw [none]
      rfl
    | some preamble =>
      simp only [Option.toList_some, flatMap_singleton]
      exact derived.preamble preamble isPreamble
  rw [derived.shown.path_eq body, flatMap_append, map_append, prelude]

end RegisterChains

/-
This file says once what handling a run of an instruction can come to: the run fits and is
committed, or it is read in another order, or from the constant bank, or the instruction gets
another encoding, or copies are made. Whatever is proved about a walk follows from these cases.
-/

import RegisterChains.Proofs.Repair.Batching
import RegisterChains.Proofs.Repair.Counting
import RegisterChains.Proofs.Repair.Searching

namespace RegisterChains

namespace Walk

open List Step

variable {setting : Setting} {place : UInt32} {k : InstructionId} {run : OperandRun}
  {walk mid after : Walk}
  {inst : Instruction} {ops assigned : List Register} {fix : RunFix} {plan : Plan} {stats : Stats}
  {otherwise : Step Walk RunFix} {counting : Stats → Stats} {attempt : Step Walk Bool}
  {result : Option RunFix} {numbers : List UInt32} {helps : Walk → Prop} {parity : Parity}
  {enabled : Bool} {note : Note}

/-! ### What a plan of copies can be made of -/

/-- What may be done about a member, when these registers are wanted for the run. -/
inductive Offer (walk : Walk) (place : UInt32) (inst : Instruction) (run : OperandRun)
    (wanted : List Register) (reg : Register) : Choice → Prop where
  | keep : Offer walk place inst run wanted reg .keep
  | reuse {others other} : run.side = .source → walk.equivalents reg = .ok others →
    other ∈ others → other ∈ wanted →
    Offer walk place inst run wanted reg (.reuse other)
  | recycle {other} : other ∈ walk.recyclable place inst wanted →
    Offer walk place inst run wanted reg (.recycle other)
  | fresh : Offer walk place inst run wanted reg .fresh

theorem Offer.of_counts {stats : Stats} {wanted : List Register} {r : Register} {choice : Choice}
    (offer : Offer { walk with stats := stats } place inst run wanted r choice) :
    Offer walk place inst run wanted r choice := by
  cases offer with
  | keep => exact .keep
  | reuse side equivalents mem isMem => exact .reuse side equivalents mem isMem
  | recycle mem => exact .recycle mem
  | fresh => exact .fresh

/-- Every member is offered something, and the registers of the run are among the wanted
ones. -/
theorem offer_of_choices {ms : List (Register × List Choice)}
    (listed : choices setting walk place inst run ops = .ok ms) :
    ∃ wanted, (∀ op ∈ ops, op ∈ wanted) ∧ ms.map Prod.fst = ops ∧
      ∀ mem ∈ ms, ∀ choice ∈ mem.2, Offer walk place inst run wanted mem.1 choice := by
  obtain ⟨same, holders, listed⟩ := except_bind_eq_ok.mp listed
  rw [except_pure_eq_ok] at listed
  rw [except_mapM_eq_ok] at holders
  refine ⟨ops ++ same.flatten, fun op => mem_append_left _, ?_, ?_⟩
  · rw [← listed, map_fst_zip]
    exact Nat.le_of_eq (holders.length_eq.trans (length_map _).symm)
  · intro mem isMem
    rw [← listed] at isMem
    obtain ⟨r, options⟩ := mem
    rw [zip_map_right, mem_map] at isMem
    obtain ⟨⟨_, others⟩, paired, isMember⟩ := isMem
    obtain ⟨rfl, rfl⟩ := Prod.mk.inj isMember
    have known := forall₂_iff_zip.mp holders |>.2 paired
    intro choice offered
    simp only [mem_append, mem_cons, mem_map, not_mem_nil, or_false] at offered
    rcases offered with ((rfl | ⟨one, isOther, rfl⟩) | ⟨one, isOther, rfl⟩) | rfl
    · exact .keep
    · split at known
      · next reuses =>
        have reuses := (Bool.and_eq_true _ _).mp reuses
        refine .reuse (of_decide_eq_true reuses.2) known isOther (mem_append_right _ ?_)
        exact mem_flatten_of_mem (of_mem_zip paired).2 isOther
      · cases known
        cases isOther
    · refine .recycle ?_
      split at isOther
      · exact isOther
      · cases isOther
    · exact .fresh

/-! ### Computations on the parts of a walk -/

variable {α : Type} {v : α} {next : Instruction → Step Walk α}

theorem onPass_yields {step : Step Pass α} : (onPass step).Yields walk v after ↔
      ∃ pass, step.Yields walk.toPass v pass ∧ after = { walk with toPass := pass } :=
  yields_within

theorem onProgram_yields {step : Step Program α} : (onProgram step).Yields walk v after ↔
      ∃ prog, step.Yields walk.program v prog ∧ after = { walk with program := prog } := by
  unfold onProgram
  rw [onPass_yields]
  constructor
  · rintro ⟨_, ran, rfl⟩
    obtain ⟨prog, inner, rfl⟩ := Pass.onProgram_yields.mp ran
    exact ⟨prog, inner, rfl⟩
  · rintro ⟨prog, ran, rfl⟩
    exact ⟨_, Pass.onProgram_yields.mpr ⟨prog, ran, rfl⟩, rfl⟩

theorem onGraph_yields {step : Step ChainGraph α} : (onGraph step).Yields walk v after ↔
      ∃ g, step.Yields walk.graph v g ∧ after = { walk with graph := g } := by
  unfold onGraph
  rw [onPass_yields]
  constructor
  · rintro ⟨_, ran, rfl⟩
    obtain ⟨g, inner, rfl⟩ := Pass.onGraph_yields.mp ran
    exact ⟨g, inner, rfl⟩
  · rintro ⟨g, ran, rfl⟩
    exact ⟨_, Pass.onGraph_yields.mpr ⟨g, ran, rfl⟩, rfl⟩

theorem onTracking_yields {step : Step Tracking α} : (onTracking step).Yields walk v after ↔
      ∃ track, step.Yields walk.tracking v track ∧
        after = { walk with cache := track.cache, graph := track.graph } :=
  yields_within

theorem count_yields {change : Stats → Stats} :
    (count change).Yields walk () after ↔ after = { walk with stats := change walk.stats } := by
  unfold count
  rw [onPass_yields]
  simp only [Pass.count_yields, exists_eq_left]

theorem yields_count_bind {change : Stats → Stats} {next : Unit → Step Walk α} :
    (count change >>= next).Yields walk v after ↔
      (next ()).Yields { walk with stats := change walk.stats } v after := Iff.rfl

theorem instruction_yields {found : Instruction} : (Walk.instruction k).Yields walk found after ↔
      walk.program.instruction k = .ok found ∧ after = walk := by
  unfold Walk.instruction
  rw [yields_get_bind]
  exact yields_lift

theorem yields_instruction_bind (found : walk.program.instruction k = .ok inst)
    (ran : (Walk.instruction k >>= next).Yields walk v after) :
    (next inst).Yields walk v after := by
  obtain ⟨_, _, reads, rest⟩ := yields_bind.mp ran
  obtain ⟨isOne, rfl⟩ := instruction_yields.mp reads
  cases found.symm.trans isOne
  exact rest

theorem setInstruction_yields : (setInstruction k inst).Yields walk () after ↔
      after = { walk with program := Program.setInstruction k inst walk.program } := by
  unfold setInstruction
  rw [onProgram_yields]
  simp only [yields_modify, exists_eq_left]

theorem judge_yields {verdict : Except Conflict Fit} :
    (judge ops parity).Yields walk verdict after ↔ verdict = walk.graph.fitOperands ops parity ∧
    after = walk := by
  unfold judge
  rw [onGraph_yields]
  constructor
  · rintro ⟨g, ⟨ended, rfl⟩, rfl⟩
    exact ⟨(Except.ok.inj ended).symm, rfl⟩
  · rintro ⟨rfl, rfl⟩
    exact ⟨_, ⟨rfl, rfl⟩, rfl⟩

theorem commit_yields : (commit ops parity).Yields walk () after ↔
      ∃ g, (ChainGraph.commit ops parity true).Yields walk.graph () g ∧
        after = { walk with graph := g } := onGraph_yields

/-! ### Repairs without copies -/

/-- All that changes is the program, the constraints and the counts. -/
structure Becomes (walk : Walk) (program : Program) (graph : ChainGraph) (after : Walk) : Prop where
  program : after.program = program
  graph : after.graph = graph
  cache : after.cache = walk.cache
  hoisted : after.hoisted = walk.hoisted
  deferred : after.deferred = walk.deferred

theorem Becomes.of_counts {prog : Program} {g : ChainGraph}
    (becomes : Becomes { walk with stats := stats } prog g after) : walk.Becomes prog g after :=
  ⟨becomes.program, becomes.graph, becomes.cache, becomes.hoisted, becomes.deferred⟩

/-- A run is read in the order its operands have on their chain. -/
structure Reordered (setting : Setting) (run : OperandRun) (walk : Walk)
    (inst : Instruction) (ops reordered : List Register) (changed : Instruction)
    (g : ChainGraph) : Prop where
  order : ∃ order, chainOrder walk.graph ops = some order ∧ reordered = order.filterMap (ops[·]?) ∧
    setting.target.acceptsOrder inst run order = true ∧
    setting.target.reorder inst run order = .ok (some changed)
  commits : ∃ fit, walk.graph.fitOperands reordered run.parity = .ok fit ∧
    (ChainGraph.commit reordered fit.parity true).Yields walk.graph () g

theorem tryReorder_yields {result : Bool} (found : walk.program.instruction k = .ok inst)
    (ran : (tryReorder setting k run ops).Yields walk result after) :
    (result = false ∧ after = walk) ∨ (result = true ∧ ∃ reordered ch g,
      Reordered setting run walk inst ops reordered ch g ∧ after = { walk with
        program := Program.setInstruction k ch walk.program
        graph := g }) := by
  unfold tryReorder at ran
  rw [yields_get_bind] at ran
  split at ran
  · next order isOrder =>
    obtain ⟨verdict, _, judges, judged⟩ := yields_bind.mp ran
    obtain ⟨isVerdict, rfl⟩ := judge_yields.mp judges
    split at judged
    · next fit =>
      have read := yields_instruction_bind found judged
      split at read
      · exact .inl (yields_pure.mp read)
      · next accepted =>
        obtain ⟨ch, isChanged, moves⟩ := yields_lift_bind.mp read
        split at moves
        · next ch =>
          obtain ⟨_, _, sets, rest⟩ := yields_bind.mp moves
          obtain rfl := setInstruction_yields.mp sets
          obtain ⟨_, g, committed, ended⟩ := yields_bind_of commit_yields rest
          obtain ⟨rfl, rfl⟩ := yields_pure.mp ended
          refine .inr ⟨rfl, _, ch, g, ⟨⟨order, isOrder, rfl, ?_, isChanged⟩, fit,
            isVerdict.symm, committed⟩, rfl⟩
          simpa using accepted
        · exact .inl (yields_pure.mp moves)
    · exact .inl (yields_pure.mp judged)
  · exact .inl (yields_pure.mp ran)

/-- A run of known values is read from the constant bank. -/
structure Substituted (setting : Setting) (run : OperandRun) (walk : Walk)
    (inst : Instruction) (ops constants : List Register) (changed : Instruction) :
    Prop where
  side : run.side = .source
  values : ∃ values start, ops.mapM (knownValue setting.target) = some values ∧
    setting.target.constantRun values run.parity = some start ∧
    constantsFrom start ops.length = .ok constants
  fits : ∃ fit, walk.graph.fitOperands constants run.parity = .ok fit
  replaced : run.replace inst constants = .ok changed

theorem tryConstants_yields {result : Bool} (found : walk.program.instruction k = .ok inst)
    (ran : (tryConstants setting k run ops).Yields walk result after) :
    (result = false ∧ after = walk) ∨ (result = true ∧ ∃ constants ch,
      Substituted setting run walk inst ops constants ch ∧
      after = { walk with program := Program.setInstruction k ch walk.program }) := by
  unfold tryConstants at ran
  split at ran
  · exact .inl (yields_pure.mp ran)
  next isSource =>
  simp only at ran
  split at ran
  · next values known =>
    split at ran
    · next start isStart =>
      have read := yields_instruction_bind found ran
      obtain ⟨constants, isConstants, rest⟩ := yields_lift_bind.mp read
      split at rest
      · exact .inl (yields_pure.mp rest)
      · obtain ⟨verdict, _, judges, judged⟩ := yields_bind.mp rest
        obtain ⟨isVerdict, rfl⟩ := judge_yields.mp judges
        split at judged
        · next fit =>
          obtain ⟨ch, isChanged, last⟩ := yields_lift_bind.mp judged
          obtain ⟨_, _, sets, ended⟩ := yields_bind.mp last
          obtain rfl := setInstruction_yields.mp sets
          obtain ⟨rfl, rfl⟩ := yields_pure.mp ended
          exact .inr ⟨rfl, constants, ch, ⟨not_not.mp isSource,
            ⟨values, start, known, isStart, isConstants⟩, ⟨fit, isVerdict.symm⟩, isChanged⟩, rfl⟩
        · exact .inl (yields_pure.mp judged)
    · exact .inl (yields_pure.mp ran)
  · exact .inl (yields_pure.mp ran)

/-- An instruction gets a cheaper encoding, in its place or as a sequence. -/
inductive Relaxed (setting : Setting) (key : InstructionId) (run : OperandRun)
    (inst : Instruction) (prog : Program) : RunFix → Program → Prop where
  | narrowed {narrowed} : setting.target.relax inst run = .ok (some (.narrow narrowed)) →
    Relaxed setting key run inst prog .narrowed (Program.setInstruction key narrowed prog)
  | expanded {sequence next inserted after} :
    setting.target.relax inst run = .ok (some (.expand sequence)) →
    prog.layout.nextOf key = .ok next →
    (Program.replace key sequence).Yields prog inserted after →
    Relaxed setting key run inst prog (.replaced (inserted.head? <|> next)) after

theorem reportNarrowed_yields {narrowed : Instruction}
    (ran : (reportNarrowed setting k narrowed).Yields walk () after) : after = walk := by
  unfold reportNarrowed at ran
  split at ran
  · obtain ⟨_, _, reports⟩ := yields_lift_bind.mp ran
    exact yields_report.mp reports
  · exact (yields_pure.mp ran).2

theorem applyRelaxation_yields {relaxation : Relaxation}
    (relaxes : setting.target.relax inst run = .ok (some relaxation))
    (ran : (applyRelaxation setting k run relaxation).Yields walk result after) :
    (result = none ∧ after = walk) ∨ ∃ fix prog, result = some fix ∧
      Relaxed setting k run inst walk.program fix prog ∧
      after = { walk with program := prog } := by
  cases relaxation with
  | narrow narrowed =>
    rw [applyRelaxation] at ran
    split at ran
    · exact .inl (yields_pure.mp ran)
    · obtain ⟨_, _, reports, rest⟩ := yields_bind.mp ran
      obtain rfl := reportNarrowed_yields reports
      obtain ⟨_, _, sets, ended⟩ := yields_bind.mp rest
      obtain rfl := setInstruction_yields.mp sets
      obtain ⟨rfl, rfl⟩ := yields_pure.mp ended
      exact .inr ⟨_, _, rfl, .narrowed relaxes, rfl⟩
  | expand sequence =>
    rw [applyRelaxation] at ran
    rw [yields_get_bind] at ran
    obtain ⟨next, isNext, rest⟩ := yields_lift_bind.mp ran
    obtain ⟨inserted, prog, replaced, ended⟩ := yields_bind_of onProgram_yields rest
    rw [yields_report_bind, yields_pure] at ended
    obtain ⟨rfl, rfl⟩ := ended
    exact .inr ⟨_, _, rfl, .expanded relaxes isNext replaced, rfl⟩

theorem tryRelax_yields {cost : Nat} (found : walk.program.instruction k = .ok inst)
    (ran : (tryRelax setting k run cost).Yields walk result after) :
    (result = none ∧ after = walk) ∨ ∃ fix prog, result = some fix ∧
      Relaxed setting k run inst walk.program fix prog ∧
      after = { walk with program := prog } := by
  unfold tryRelax at ran
  have read := yields_instruction_bind found ran
  obtain ⟨relaxation, relaxes, rest⟩ := yields_lift_bind.mp read
  split at rest
  · split at rest
    · rw [yields_report_bind] at rest
      exact .inl (yields_pure.mp rest)
    · exact applyRelaxation_yields relaxes rest
  · exact .inl (yields_pure.mp rest)

/-! ### Plans -/

/-- A plan gives every member one of the choices there are. It was judged to fit, unless it
copies all members for want of a better one. -/
structure Planned (setting : Setting) (place : UInt32) (run : OperandRun) (walk : Walk)
    (inst : Instruction) (ops : List Register) (plan : Plan) : Prop where
  offered : ∃ wanted, (∀ op ∈ ops, op ∈ wanted) ∧
    List.Forall₂ (Offer walk place inst run wanted) ops plan.choices
  batches : plan.batches = batches setting walk.program run ops plan.choices
  judged : (plan.choices = ops.map fun _ => .fresh) ∨
    ∃ fit, walk.graph.fit (slotsOf ops plan.choices) run.parity = .ok fit

theorem Planned.of_counts
    (planned : Planned setting place run { walk with stats := stats } inst ops plan) :
    Planned setting place run walk inst ops plan where
  offered := by
    obtain ⟨wanted, mem, offered⟩ := planned.offered
    exact ⟨wanted, mem, offered.imp fun _ _ offer => offer.of_counts⟩
  batches := planned.batches
  judged := planned.judged

theorem planCopies_yields (found : walk.program.instruction k = .ok inst)
    (ran : (planCopies setting place k run ops).Yields walk plan after) :
    after = walk ∧ Planned setting place run walk inst ops plan := by
  unfold planCopies at ran
  rw [yields_get_bind] at ran
  have read := yields_instruction_bind found ran
  obtain ⟨ms, listed, rest⟩ := yields_lift_bind.mp read
  obtain ⟨wanted, isMem, named, offers⟩ := offer_of_choices listed
  rw [yields_reportAll_bind] at rest
  simp only at rest
  have chosen : ∀ choices : List Choice,
      List.Forall₂ (fun mem choice => choice ∈ mem.2) ms choices →
      List.Forall₂ (Offer walk place inst run wanted) ops choices := by
    intro choices taken
    rw [← named, forall₂_map_left_iff]
    exact forall₂_iff_zip.mpr ⟨taken.length_eq, fun paired =>
      offers _ (of_mem_zip paired).1 _ (forall₂_iff_zip.mp taken |>.2 paired)⟩
  split at rest
  · next cost choices best =>
    obtain ⟨rfl, rfl⟩ := yields_pure.mp rest
    have survives := Search.survives_of_run best
    refine ⟨rfl, ⟨wanted, isMem, chosen choices survives.offered⟩, rfl, ?_⟩
    by_cases some : ms = []
    · subst some
      cases survives.offered
      exact .inl (named ▸ rfl)
    · exact .inr (named ▸ (survives.passes some).fits)
  · rw [yields_report_bind] at rest
    obtain ⟨rfl, rfl⟩ := yields_pure.mp rest
    refine ⟨rfl, ⟨wanted, isMem, ?_⟩, rfl, .inl rfl⟩
    rw [forall₂_map_right_iff, forall₂_same]
    exact fun _ _ => .fresh

/-- The registers that the members of a planned run end up with, when fresh ones take these
numbers. -/
inductive Assigns : List (Register × Choice) → List UInt32 → List Register → Prop where
  | nil (numbers : List UInt32) : Assigns [] numbers []
  | keep {reg rest numbers assigned} : Assigns rest numbers assigned →
    Assigns ((reg, .keep) :: rest) numbers (reg :: assigned)
  | reuse {reg other rest numbers assigned} : Assigns rest numbers assigned →
    Assigns ((reg, .reuse other) :: rest) numbers (other :: assigned)
  | recycle {reg other rest numbers assigned} : Assigns rest numbers assigned →
    Assigns ((reg, .recycle other) :: rest) numbers (other :: assigned)
  | fresh {reg number rest numbers assigned} : Assigns rest numbers assigned →
    Assigns ((reg, .fresh) :: rest) (number :: numbers) (.temp number :: assigned)

theorem assignment_yields {ms : List (Register × Choice)}
    (ran : (assignment ms numbers).Yields walk assigned after) :
    Assigns ms numbers assigned ∧ ∃ stats, after = { walk with stats := stats } := by
  induction ms generalizing walk numbers assigned with
  | nil =>
    obtain ⟨rfl, rfl⟩ := yields_pure.mp ran
    exact ⟨.nil numbers, _, rfl⟩
  | cons mem rest ih =>
    obtain ⟨r, choice⟩ := mem
    cases choice with
    | keep =>
      obtain ⟨others, assigns, rfl⟩ := yields_bind_pure.mp ran
      obtain ⟨assigns, changes⟩ := ih assigns
      exact ⟨.keep assigns, changes⟩
    | reuse one =>
      have counted := yields_count_bind.mp ran
      obtain ⟨others, assigns, rfl⟩ := yields_bind_pure.mp counted
      obtain ⟨assigns, changes⟩ := ih assigns
      exact ⟨.reuse assigns, changes⟩
    | recycle one =>
      have counted := yields_count_bind.mp ran
      obtain ⟨others, assigns, rfl⟩ := yields_bind_pure.mp counted
      obtain ⟨assigns, changes⟩ := ih assigns
      exact ⟨.recycle assigns, changes⟩
    | fresh =>
      cases numbers with
      | nil => exact absurd ran not_yields_contradict
      | cons number numbers =>
        obtain ⟨others, assigns, rfl⟩ := yields_bind_pure.mp ran
        obtain ⟨assigns, changes⟩ := ih assigns
        exact ⟨.fresh assigns, changes⟩

theorem toNat_add_index {start : UInt32} {count : Nat} (small : start.toNat + count < UInt32.size)
    {i : Nat} (lt : i < count) : (start + i.toUInt32).toNat = start.toNat + i := by
  rw [UInt32.toNat_add, Nat.toUInt32_eq, UInt32.toNat_ofNat', Nat.mod_eq_of_lt, Nat.mod_eq_of_lt]
  all_goals
    simp only [UInt32.size] at small ⊢
    omega

/-- Fresh registers get numbers that were not in use, each a different one. -/
theorem freshNumbers_yields {needed : Nat} (ran : (freshNumbers needed).Yields walk numbers after) :
    ∃ next, walk.program.nextTemp ≤ next ∧ numbers.length = needed ∧ numbers.Nodup ∧
      (∀ number ∈ numbers, walk.program.nextTemp ≤ number ∧ number < next) ∧
      after = { walk with program := { walk.program with nextTemp := next } } := by
  unfold freshNumbers at ran
  split at ran
  · next none =>
    obtain ⟨rfl, rfl⟩ := yields_pure.mp ran
    exact ⟨after.program.nextTemp, UInt32.le_refl _, none.symm, nodup_nil, forall_mem_nil _, rfl⟩
  · obtain ⟨⟨start, stop⟩, prog, allocated, ended⟩ := yields_bind_of onProgram_yields ran
    obtain ⟨rfl, rfl⟩ := yields_pure.mp ended
    obtain ⟨small, _, rfl, rfl, rfl⟩ := Program.allocate_yields.mp allocated
    have stops : (walk.program.nextTemp.toNat + needed).toUInt32.toNat =
        walk.program.nextTemp.toNat + needed := by
      rw [Nat.toUInt32_eq, UInt32.toNat_ofNat', Nat.mod_eq_of_lt small]
    have counts : (walk.program.nextTemp.toNat + needed).toUInt32.toNat -
        walk.program.nextTemp.toNat = needed := by omega
    refine ⟨_, ?_, ?_, ?_, fun number mem => ?_, rfl⟩
    · rw [UInt32.le_iff_toNat_le, stops]
      omega
    · rw [length_map, length_range, counts]
    · rw [counts]
      refine List.Nodup.map_on (fun one isOne other isOther same => ?_) nodup_range
      have same := congrArg UInt32.toNat same
      rw [toNat_add_index small (mem_range.mp isOne),
        toNat_add_index small (mem_range.mp isOther)] at same
      omega
    · rw [counts] at mem
      obtain ⟨i, isMem, rfl⟩ := mem_map.mp mem
      have lt := mem_range.mp isMem
      have v := toNat_add_index small lt
      rw [UInt32.le_iff_toNat_le, UInt32.lt_iff_toNat_lt, stops, v]
      omega

/-- The members of a run are settled, the run is committed, and the instruction names them. -/
structure Carried (key : InstructionId) (run : OperandRun) (walk : Walk)
    (inst : Instruction) (ops : List Register) (plan : Plan)
    (assigned : List Register) (changed : Instruction) (next : UInt32) (g : ChainGraph) :
    Prop where
  later : walk.program.nextTemp ≤ next
  assigns : ∃ numbers : List UInt32, numbers.Nodup ∧
    (∀ number ∈ numbers, walk.program.nextTemp ≤ number ∧ number < next) ∧
    Assigns (ops.zip plan.choices) numbers assigned
  commits : ∃ fit, walk.graph.fitOperands assigned run.parity = .ok fit ∧
    (ChainGraph.commit assigned fit.parity true).Yields walk.graph () g
  replaced : run.replace inst assigned = .ok changed

theorem applyPlan_yields (found : walk.program.instruction k = .ok inst)
    (ran : (applyPlan k run ops plan).Yields walk assigned after) : ∃ ch next g,
      Carried k run walk inst ops plan assigned ch next g ∧
      walk.Becomes (Program.setInstruction k ch { walk.program with nextTemp := next }) g
      after := by
  obtain ⟨numbers, _, numbered, rest⟩ := yields_bind.mp ran
  obtain ⟨next, later, _, distinct, bounds, rfl⟩ := freshNumbers_yields numbered
  obtain ⟨regs, _, assigned', rest'⟩ := yields_bind.mp rest
  obtain ⟨assigns, stats, rfl⟩ := assignment_yields assigned'
  obtain ⟨verdict, _, judges, judged⟩ := yields_bind.mp rest'
  obtain ⟨isVerdict, rfl⟩ := judge_yields.mp judges
  split at judged
  · exact absurd judged not_yields_contradict
  · next fit =>
    obtain ⟨_, g, commits', committed⟩ := yields_bind_of commit_yields judged
    have read := yields_instruction_bind (by exact found) committed
    obtain ⟨ch, isChanged, sets⟩ := yields_lift_bind.mp read
    obtain ⟨_, _, sets, ended⟩ := yields_bind.mp sets
    obtain rfl := setInstruction_yields.mp sets
    rw [yields_report_bind] at ended
    obtain ⟨rfl, rfl⟩ := yields_pure.mp ended
    exact ⟨ch, next, g, ⟨later, ⟨numbers, distinct, bounds, assigns⟩,
      ⟨fit, isVerdict.symm, commits'⟩, isChanged⟩, rfl, rfl, rfl, rfl, rfl⟩

/-! ### One run -/

/-- What handling a run can come to. -/
inductive Handled (setting : Setting) (place : UInt32) (key : InstructionId) (run : OperandRun)
    (walk : Walk) (inst : Instruction) (ops : List Register) :
    RunFix → Walk → Prop where
  /-- The run fits. -/
  | fits {fit g after} : walk.graph.fitOperands ops run.parity = .ok fit →
    (ChainGraph.commit ops fit.parity true).Yields walk.graph () g →
    walk.Becomes walk.program g after →
    Handled setting place key run walk inst ops .holds after
  /-- The run is read in another order. -/
  | reordered {reordered changed g after} :
    Reordered setting run walk inst ops reordered changed g →
    walk.Becomes (Program.setInstruction key changed walk.program) g after →
    Handled setting place key run walk inst ops .holds after
  /-- The run is read from the constant bank. -/
  | substituted {constants changed after} :
    Substituted setting run walk inst ops constants changed →
    walk.Becomes (Program.setInstruction key changed walk.program) walk.graph after →
    Handled setting place key run walk inst ops .holds after
  /-- The instruction gets another encoding. -/
  | relaxed {fix prog after} : Relaxed setting key run inst walk.program fix prog →
    walk.Becomes prog walk.graph after →
    Handled setting place key run walk inst ops fix after
  /-- Copies are made in front of the instruction. -/
  | copiedIn {plan assigned changed next g middle after} : run.side = .source →
    Planned setting place run walk inst ops plan →
    Carried key run walk inst ops plan assigned changed next g →
    walk.Becomes (Program.setInstruction key changed { walk.program with nextTemp := next })
      g middle →
    (copyIn place key (ops.zip assigned) plan.batches).Yields middle () after →
    Handled setting place key run walk inst ops .holds after
  /-- Copies are made behind the instruction. -/
  | copiedOut {plan assigned changed next g middle after copies} : run.side = .dest →
    Planned setting place run walk inst ops plan →
    Carried key run walk inst ops plan assigned changed next g →
    walk.Becomes (Program.setInstruction key changed { walk.program with nextTemp := next })
      g middle →
    (copyOut key (ops.zip (assigned.zip plan.choices))).Yields middle copies after →
    Handled setting place key run walk inst ops (.copiedOut copies) after

/-- Counts do not matter. -/
theorem Handled.of_counts
    (handled : Handled setting place k run { walk with stats := stats } inst ops fix after) :
    Handled setting place k run walk inst ops fix after := by
  cases handled with
  | fits fits commits becomes => exact .fits fits commits becomes.of_counts
  | reordered reordered becomes =>
    exact .reordered ⟨reordered.order, reordered.commits⟩ becomes.of_counts
  | substituted substituted becomes =>
    exact .substituted ⟨substituted.side, substituted.values, substituted.fits,
      substituted.replaced⟩ becomes.of_counts
  | relaxed relaxed becomes => exact .relaxed relaxed becomes.of_counts
  | copiedIn side planned carried becomes copies =>
    exact .copiedIn side planned.of_counts ⟨carried.later, carried.assigns, carried.commits,
      carried.replaced⟩ becomes.of_counts copies
  | copiedOut side planned carried becomes copies =>
    exact .copiedOut side planned.of_counts ⟨carried.later, carried.assigns, carried.commits,
      carried.replaced⟩ becomes.of_counts copies

/-- What is left to try for a run that can only be relaxed or copied. -/
def relaxOrCopy (setting : Setting) (place : UInt32) (k : InstructionId) (run : OperandRun)
    (ops : List Register) : Step Walk RunFix := do
  let plan ← planCopies setting place k run ops
  if setting.options.relaxEncodings then
    if let some fix ← tryRelax setting k run plan.cost then
      count fun stats => { stats with relaxed := stats.relaxed + 1 }
      return fix
  copyRun place k run ops plan

/-- One way to make a run hold, if it is enabled, and what is done if it does not help. -/
def tryFirst (enabled : Bool) (attempt : Step Walk Bool) (note : Note) (counting : Stats → Stats)
    (otherwise : Step Walk RunFix) : Step Walk RunFix := do
  if enabled then
    if ← attempt then
      Step.report note
      count counting
      return .holds
  otherwise

theorem repairRun_eq : repairRun setting place k run ops =
    tryFirst setting.options.reorderOperands (tryReorder setting k run ops) (.reordered k)
      (fun stats => { stats with reordered := stats.reordered + 1 })
      (tryFirst setting.options.substituteConstants (tryConstants setting k run ops)
        (.substituted k) (fun stats => { stats with substituted := stats.substituted + 1 })
        (relaxOrCopy setting place k run ops)) := rfl

section

variable (outcome : ∀ {result mid}, attempt.Yields walk result mid →
  (result = false ∧ mid = walk) ∨ (result = true ∧ helps mid))

include outcome

theorem tryFirst_yields
    (ran : (tryFirst enabled attempt note counting otherwise).Yields walk fix after) :
    otherwise.Yields walk fix after ∨ ∃ mid, helps mid ∧ fix = .holds ∧
      after = { mid with stats := counting mid.stats } := by
  unfold tryFirst at ran
  split at ran
  · obtain ⟨result, mid, tries, rest⟩ := yields_bind.mp ran
    obtain ⟨rfl, rfl⟩ | ⟨rfl, helps⟩ := outcome tries
    · exact .inl rest
    · rw [if_pos rfl, yields_report_bind] at rest
      have ended := yields_count_bind.mp rest
      obtain ⟨rfl, rfl⟩ := yields_pure.mp ended
      exact .inr ⟨mid, helps, rfl, rfl⟩
  · exact .inl ran

theorem fails_tryFirst {account : Walk → Failure → Prop}
    (tried : enabled = true → attempt.FailsFor account walk)
    (rest : otherwise.FailsFor account walk) :
    (tryFirst enabled attempt note counting otherwise).FailsFor account walk := by
  unfold tryFirst
  split
  · next isEnabled =>
    refine fails_bind (tried isEnabled) fun result _ tries => ?_
    obtain ⟨rfl, rfl⟩ | ⟨rfl, _⟩ := outcome tries
    · exact rest
    · rw [if_pos rfl, fails_report_bind]
      exact (count_yields.mpr rfl).fails_bind fails_pure
  · exact rest

end

section

variable (found : walk.program.instruction k = .ok inst)

include found

theorem copyRun_yields (planned : Planned setting place run walk inst ops plan)
    (ran : (copyRun place k run ops plan).Yields walk fix after) :
    Handled setting place k run walk inst ops fix after := by
  obtain ⟨assigned, _, applies, rest⟩ := yields_bind.mp ran
  obtain ⟨ch, next, g, carried, becomes⟩ := applyPlan_yields found applies
  split at rest
  · next side =>
    obtain ⟨_, copies, rfl⟩ := yields_bind_pure.mp rest
    exact .copiedIn side planned carried becomes copies
  · next side =>
    obtain ⟨made, copies, rfl⟩ := yields_bind_pure.mp rest
    exact .copiedOut side planned carried becomes copies

/-- A run for which a plan is made is relaxed or copied. -/
theorem relaxOrCopy_yields (ran : (relaxOrCopy setting place k run ops).Yields walk fix after) :
    Handled setting place k run walk inst ops fix after ∧ after.looked = walk.looked := by
  obtain ⟨plan, mid, plans, rest⟩ := yields_bind.mp ran
  obtain ⟨rfl, planned⟩ := planCopies_yields found plans
  split at rest
  · obtain ⟨result, _, relaxes, relaxed⟩ := yields_bind.mp rest
    obtain ⟨rfl, rfl⟩ | ⟨fix', prog, rfl, isRelaxed, rfl⟩ := tryRelax_yields found relaxes
    · exact ⟨copyRun_yields found planned relaxed, uncounted_copyRun.looked relaxed⟩
    · have ended := yields_count_bind.mp relaxed
      obtain ⟨rfl, rfl⟩ := yields_pure.mp ended
      exact ⟨.relaxed isRelaxed ⟨rfl, rfl, rfl, rfl, rfl⟩, rfl⟩
  · exact ⟨copyRun_yields found planned rest, uncounted_copyRun.looked rest⟩

theorem repairRun_yields (ran : (repairRun setting place k run ops).Yields walk fix after) :
    Handled setting place k run walk inst ops fix after ∧ after.looked = walk.looked := by
  rw [repairRun_eq] at ran
  obtain rest | ⟨_, ⟨reordered, ch, g, isReordered, rfl⟩, rfl, rfl⟩ :=
    tryFirst_yields (tryReorder_yields found) ran
  · obtain rest | ⟨_, ⟨constants, ch, isSubstituted, rfl⟩, rfl, rfl⟩ :=
      tryFirst_yields (tryConstants_yields found) rest
    · exact relaxOrCopy_yields found rest
    · exact ⟨.substituted isSubstituted ⟨rfl, rfl, rfl, rfl, rfl⟩, rfl⟩
  · exact ⟨.reordered isReordered ⟨rfl, rfl, rfl, rfl, rfl⟩, rfl⟩

end

/-- Handling a run comes to one of these cases, and every run that is looked at counts once. -/
theorem handleRun_yields (ran : (handleRun setting place k run).Yields walk fix after) : ∃ inst ops,
    walk.program.instruction k = .ok inst ∧ run.operands inst = .ok ops ∧
      Handled setting place k run walk inst ops fix after ∧ after.looked = walk.looked + 1 := by
  obtain ⟨inst, now, reads, read⟩ := yields_bind.mp ran
  obtain ⟨found, rfl⟩ := instruction_yields.mp reads
  obtain ⟨ops, isOperands, rest⟩ := yields_lift_bind.mp read
  refine ⟨inst, ops, found, isOperands, ?_⟩
  rw [yields_get_bind] at rest
  obtain ⟨stats, counts, rest⟩ := yields_lift_bind.mp rest
  obtain rfl := Stats.eq_of_countChecked counts
  rw [yields_modify_bind] at rest
  obtain ⟨verdict, _, judges, judged⟩ := yields_bind.mp rest
  obtain ⟨isVerdict, rfl⟩ := judge_yields.mp judges
  split at judged
  · next fit =>
    obtain ⟨_, g, committed, ended⟩ := yields_bind_of commit_yields judged
    obtain ⟨rfl, rfl⟩ := yields_pure.mp ended
    exact ⟨.fits isVerdict.symm committed ⟨rfl, rfl, rfl, rfl, rfl⟩, rfl⟩
  · rw [yields_report_bind] at judged
    obtain ⟨handled, looked⟩ := repairRun_yields (by exact found) (yields_count_bind.mp judged)
    exact ⟨.of_counts handled, looked⟩

end Walk

end RegisterChains

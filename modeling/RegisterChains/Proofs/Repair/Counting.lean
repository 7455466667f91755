/-
This file proves what is not counted and not noted. All that works on the constraints, on the known
copies or on the program alone makes no note of an expansion, and so does the search for a plan.
Neither a repair nor what is learned from an instruction touches the count of the runs that were
looked at. Most of what a walk does is calm: it adds no instruction either.
-/

import RegisterChains.Repair.Visit
import RegisterChains.Proofs.Program.Operations

namespace RegisterChains

open List Step Tracking

/-- Whether a note says that an instruction was replaced by a sequence. -/
def Note.isExpansion : Note → Bool
  | .expanded _ _ => true
  | _ => false

/-- A computation makes no note of an expansion. -/
def Step.Quiet {σ α : Type} (step : Step σ α) : Prop :=
  step.Preserves (fun _ => ()) Note.isExpansion

namespace Edit

variable {α β : Type}

/-- A change of a graph makes no note of an expansion. -/
def Quiet (edit : Edit α) : Prop := ∀ note ∈ edit.notes, note.isExpansion = false

theorem Quiet.append {first : Edit α} {second : Edit β} (quiet : first.Quiet)
    (quiet' : second.Quiet) : ∀ note ∈ first.notes ++ second.notes, note.isExpansion = false :=
  forall_mem_append.mpr ⟨quiet, quiet'⟩

end Edit

/-! ### The constraints -/

namespace ChainGraph

variable (g : ChainGraph)

theorem quiet_apply {α : Type} {change : ChainGraph → Edit α} (quiet : ∀ g, (change g).Quiet) :
    (apply change).Quiet := fun g => ⟨rfl, quiet g⟩

theorem quiet_ensure (r : Register) : (g.ensure r).Quiet := by
  unfold ensure
  split
  · exact forall_mem_nil _
  · exact forall_mem_singleton.mpr rfl

theorem quiet_unlink (id : NodeId) : (g.unlink id).Quiet := by
  unfold unlink
  split
  · exact forall_mem_nil _
  · show ∀ note ∈ g.cutNotes id _, _
    unfold cutNotes
    split
    · exact forall_mem_singleton.mpr rfl
    · exact forall_mem_nil _

theorem quiet_unlinkAll (ids : List NodeId) : (g.unlinkAll ids).Quiet := by
  induction ids generalizing g with
  | nil => exact forall_mem_nil _
  | cons id rest ih => exact (quiet_unlink g id).append (ih _)

theorem quiet_dropOptionalOf (id : Option NodeId) : (g.dropOptionalOf id).Quiet := by
  cases id with
  | none => exact forall_mem_nil _
  | some id => exact quiet_unlinkAll g _

theorem quiet_strengthen (id : NodeId) (must via : Bool) : (g.strengthen id must via).Quiet := by
  unfold strengthen
  generalize (if via then _ else g) = marked
  simp only
  split
  · exact quiet_unlinkAll _ _
  · exact forall_mem_nil _

theorem quiet_connect (a b : Register) (id id' : Option NodeId) (must via : Bool) :
    (g.connect a id b id' must via).Quiet := by
  have drops : ∀ (g : ChainGraph) (id : Option NodeId), Edit.Quiet
      (if must then g.dropOptionalOf id else ⟨(), g, []⟩ : Edit Unit) := by
    intro g id
    split
    · exact quiet_dropOptionalOf g id
    · exact forall_mem_nil _
  refine forall_mem_append.mpr ⟨forall_mem_append.mpr ⟨forall_mem_append.mpr
    ⟨(drops _ _).append (drops _ _), quiet_ensure _ _⟩, quiet_ensure _ _⟩,
    forall_mem_singleton.mpr rfl⟩

theorem quiet_link (a b : Register) (must via : Bool) : (g.link a b must via).Quiet := by
  unfold link linkNodes
  simp only
  split
  · split
    · exact quiet_strengthen g _ _ _
    · split
      · exact quiet_connect g _ _ _ _ _ _
      · exact forall_mem_singleton.mpr rfl
  · exact forall_mem_nil _

theorem quiet_create (r : Register) : (create r).Quiet := by
  unfold create
  split
  · exact quiet_apply fun g => quiet_ensure g r
  · exact preserves_stop

theorem quiet_demandParity (id : NodeId) (parity : Parity) (must : Bool) :
    (demandParity id parity must).Quiet := by
  unfold demandParity
  split
  · exact preserves_pure
  · exact preserves_bind preserves_get fun _ => preserves_bind preserves_lift fun _ =>
      fun _ => ⟨rfl, forall_mem_nil _⟩

theorem quiet_commitLinks (via : Bool) (regs : List Register) : (commitLinks via regs).Quiet := by
  induction regs with
  | nil => exact preserves_pure
  | cons head rest ih =>
    cases rest with
    | nil => exact preserves_pure
    | cons next rest =>
      refine preserves_bind (quiet_apply fun g => quiet_link g head next true via) fun linked => ?_
      split
      · exact ih
      · exact preserves_stop

theorem quiet_commit (regs : List Register) (parity : Parity) (via : Bool) :
    (commit regs parity via).Quiet := by
  unfold commit
  split
  · refine preserves_bind (quiet_commitLinks via regs) fun _ => ?_
    unfold commitParity
    split
    · exact preserves_pure
    · split
      · exact preserves_pure
      · refine preserves_bind (quiet_create _) fun id => ?_
        refine preserves_bind (quiet_demandParity _ _ _) fun demanded => ?_
        split
        · exact preserves_stop
        · exact preserves_pure
  · split
    · exact preserves_pure
    · exact preserves_stop

theorem quiet_judgeOperands (ops : List Register) (parity : Parity) :
    (judgeOperands ops parity).Quiet := by
  intro g
  refine ⟨rfl, ?_⟩
  show ∀ note ∈ verdictNotes _ (g.fit _ _), _
  cases g.fit _ _ with
  | ok fit => exact forall_mem_nil _
  | error conflict => exact forall_mem_singleton.mpr rfl

end ChainGraph

/-! ### Known copies -/

namespace Tracking

theorem quiet_modify {change : Tracking → Tracking} :
    (modify change : Step Tracking Unit).Quiet := preserves_modify fun _ => rfl

theorem quiet_clear : clear.Quiet := by
  refine preserves_bind quiet_modify fun _ => preserves_bind preserves_get fun track => ?_
  split
  · exact preserves_stop
  · exact preserves_pure

theorem quiet_finish : finish.Quiet :=
  preserves_bind preserves_get fun _ => preserves_bind (preserves_report rfl) fun _ => quiet_clear

theorem quiet_learn (record : CopyRecord) : ((modifyGet (·.remember record) :
      Step Tracking CopyId) >>= fun id => get >>= fun track =>
      Step.report (.copyKnown record.dest record.value track.cache.block) >>= fun _ =>
      pure (some id)).Quiet :=
  preserves_bind (fun _ => ⟨rfl, forall_mem_nil _⟩) fun _ => preserves_bind preserves_get fun _ =>
    preserves_bind (preserves_report rfl) fun _ => preserves_pure

theorem quiet_recordCopy (v holder : Register) (origin : Option InstructionId) (place : UInt32)
    (owned : Bool) : (recordCopy v holder origin place owned).Quiet := by
  unfold recordCopy
  split
  · exact preserves_pure
  · refine preserves_bind (preserves_within (ChainGraph.quiet_create holder) fun _ _ _ => rfl)
      fun id => ?_
    refine preserves_bind preserves_get fun track => preserves_bind preserves_lift fun n => ?_
    split
    · exact preserves_pure
    · exact preserves_bind quiet_modify fun _ => quiet_learn ⟨v, holder, id, origin, place, owned⟩
    · exact quiet_learn ⟨v, holder, id, origin, place, owned⟩

end Tracking

/-! ### The program -/

namespace Program

/-- Where the instructions of a program stand. -/
def frame (prog : Program) : Layout × Option BlockId := (prog.layout, prog.preamble)

theorem frame_exportRegister (prog : Program) (r : Register) :
    (prog.exportRegister r).frame = prog.frame := by
  unfold exportRegister
  split
  · rfl
  · rfl

theorem quiet_create_place {inst : Instruction}
    {placing : InstructionId → Layout → Except Breach Layout} :
    (create inst >>= fun k => changeLayout (placing k) >>= fun _ => pure k).Quiet := by
  refine preserves_bind ?_ fun k => preserves_bind ?_ fun _ => preserves_pure
  · refine preserves_bind preserves_get fun prog => ?_
    split
    · exact preserves_stop
    · exact preserves_bind preserves_get fun _ => preserves_bind preserves_lift fun _ =>
        preserves_bind (preserves_modify fun _ => rfl) fun _ => preserves_pure
  · exact preserves_bind preserves_get fun _ => preserves_bind preserves_lift fun _ =>
      preserves_modify fun _ => rfl

theorem quiet_replace (k : InstructionId) (sequence : List Instruction) :
    (replace k sequence).Quiet := by
  refine preserves_bind ?_ fun inserted => preserves_bind ?_ fun _ => preserves_pure
  · induction sequence with
    | nil => exact preserves_pure
    | cons inst rest ih =>
      exact preserves_bind quiet_create_place fun _ => preserves_bind ih fun _ => preserves_pure
  · exact preserves_bind preserves_get fun _ => preserves_bind preserves_lift fun _ =>
      preserves_modify fun _ => rfl

theorem preserves_allocate (count : Nat) : (allocate count).Preserves frame Note.isExpansion := by
  refine preserves_get_bind fun prog => ?_
  simp only
  split
  · exact ⟨rfl, forall_mem_nil _⟩
  · exact ⟨rfl, forall_mem_nil _⟩

theorem preserves_renameAfter (k : InstructionId) (r replacement : Register) :
    (renameAfter k r replacement).Preserves frame Note.isExpansion :=
  preserves_bind preserves_get fun _ => preserves_bind preserves_lift fun _ =>
    preserves_modify fun _ => rfl

end Program

/-! ### Searching -/

theorem Search.quiet_explore {judge : List Slot → Except Conflict Fit}
    {ms : List (Register × List Choice)} {chosen : List Choice} {slots : List Slot} {cost : Nat}
    {search : Search} (quiet : ∀ note ∈ search.notes, note.isExpansion = false) :
    ∀ note ∈ (explore judge ms chosen slots cost search).notes, note.isExpansion = false := by
  induction ms generalizing chosen slots cost search with
  | nil =>
    unfold explore
    split
    · exact quiet
    · exact quiet
  | cons mem rest ih =>
    obtain ⟨r, tries⟩ := mem
    unfold explore
    split
    · next improves =>
      clear improves
      induction tries generalizing search with
      | nil => exact quiet
      | cons choice tries ih' =>
        refine ih' ?_
        simp only
        split
        · exact quiet
        · split
          · exact ih quiet
          · exact forall_mem_cons.mpr ⟨rfl, quiet⟩
    · exact quiet

/-- Where instructions stand, and how many were added. -/
def Pass.books (pass : Pass) : (Layout × Option BlockId) × Nat × Nat × Nat :=
  (pass.program.frame, pass.stats.copies, pass.stats.hoisted, pass.stats.seedCopies)

theorem Stats.eq_of_countChecked {stats more : Stats} (counts : stats.countChecked = .ok more) :
    more = { stats with checked := stats.checked + 1 } := by
  unfold countChecked at counts
  split at counts
  · cases counts
    rfl
  · cases counts

namespace Walk

open Step

variable {setting : Setting} {place : UInt32} {k copy : InstructionId} {run : OperandRun}
  {walk after : Walk}
  {ops : List Register} {pairs : List (Register × Register)} {α : Type} {pending : List PendingCopy}
  {change : Stats → Stats} {step : Step Program α} {holder v : Register} {parity : Parity}
  {plan : Plan}

/-- How many runs were looked at so far. -/
def looked (walk : Walk) : Nat := walk.stats.checked

/-- A computation looks at no run. -/
def Uncounted {α : Type} (step : Step Walk α) : Prop := step.Preserves looked fun _ => false

/-- A computation looks at no run, adds no instruction and expands none. -/
def Calm {α : Type} (step : Step Walk α) : Prop := step.Preserves
  (fun walk => (walk.looked, walk.books)) Note.isExpansion

theorem Calm.uncounted {step : Step Walk α} (calm : Calm step) : Uncounted step :=
  calm.less Prod.fst

theorem Uncounted.looked {step : Step Walk α} (uncounted : Uncounted step) {result : α}
    (ran : step.Yields walk result after) : after.looked = walk.looked :=
  ran.leaves_eq ▸ (uncounted walk).1

theorem uncounted_onProgram : Uncounted (onProgram step) :=
  fun _ => ⟨rfl, fun _ _ => rfl⟩

theorem calm_onProgram (stays : step.Preserves Program.frame Note.isExpansion) :
    Calm (onProgram step) :=
  fun walk => ⟨congrArg (fun frame => (walk.looked, frame, walk.stats.copies, walk.stats.hoisted,
    walk.stats.seedCopies)) (stays walk.program).1, (stays walk.program).2⟩

theorem calm_setInstruction {inst : Instruction} : Calm (setInstruction k inst) :=
  calm_onProgram (preserves_modify fun _ => rfl)

theorem calm_onGraph {step : Step ChainGraph α} (quiet : step.Quiet) :
    Calm (onGraph step) := fun walk => ⟨rfl, (quiet walk.graph).2⟩

theorem calm_judge : Calm (judge ops parity) :=
  calm_onGraph (ChainGraph.quiet_judgeOperands ops parity)

theorem calm_commit : Calm (commit ops parity) :=
  calm_onGraph (ChainGraph.quiet_commit ops parity true)

theorem calm_onTracking {step : Step Tracking α} (quiet : step.Quiet) :
    Calm (onTracking step) := fun walk => ⟨rfl, (quiet walk.tracking).2⟩

theorem calm_count (same : ∀ walk : Walk,
      (looked { walk with stats := change walk.stats },
        Pass.books { walk with stats := change walk.stats }) = (walk.looked, walk.books)) :
    Calm (count change) := fun walk => ⟨same walk, List.forall_mem_nil _⟩

theorem uncounted_count (same : ∀ stats, (change stats).checked = stats.checked) :
    Uncounted (count change) :=
  fun walk => ⟨same walk.stats, fun _ _ => rfl⟩

theorem calm_instruction : Calm (Walk.instruction k) :=
  preserves_bind preserves_get fun _ => preserves_lift

/-! ### Repairs without copies -/

theorem calm_tryReorder : Calm (tryReorder setting k run ops) := by
  unfold tryReorder
  refine preserves_bind preserves_get fun walk => ?_
  split
  · refine preserves_bind calm_judge fun verdict => ?_
    split
    · refine preserves_bind calm_instruction fun inst => ?_
      split
      · exact preserves_pure
      · refine preserves_bind preserves_lift fun reordered => ?_
        split
        · exact preserves_bind calm_setInstruction fun _ =>
            preserves_bind calm_commit fun _ => preserves_pure
        · exact preserves_pure
    · exact preserves_pure
  · exact preserves_pure

theorem calm_tryConstants : Calm (tryConstants setting k run ops) := by
  unfold tryConstants
  split
  · exact preserves_pure
  · simp only
    split
    · split
      · refine preserves_bind calm_instruction fun inst => ?_
        refine preserves_bind preserves_lift fun constants => ?_
        split
        · exact preserves_pure
        · refine preserves_bind calm_judge fun verdict => ?_
          split
          · exact preserves_bind preserves_lift fun _ =>
              preserves_bind calm_setInstruction fun _ => preserves_pure
          · exact preserves_pure
      · exact preserves_pure
    · exact preserves_pure

theorem calm_reportNarrowed {narrowed : Instruction} :
    Calm (reportNarrowed setting k narrowed) := by
  unfold reportNarrowed
  split
  · exact preserves_bind preserves_lift fun _ => preserves_report rfl
  · exact preserves_pure

/-! ### Copies -/

theorem calm_planCopies : Calm (planCopies setting place k run ops) := by
  unfold planCopies
  refine preserves_bind preserves_get fun walk => ?_
  refine preserves_bind calm_instruction fun inst => ?_
  refine preserves_bind preserves_lift fun ms => ?_
  simp only
  refine preserves_bind (preserves_reportAll ?_) fun _ => ?_
  · intro note mem
    exact Search.quiet_explore (List.forall_mem_nil _) note (List.mem_reverse.mp mem)
  split
  · exact preserves_pure
  · exact preserves_bind (preserves_report rfl) fun _ => preserves_pure

theorem calm_assignment {ms : List (Register × Choice)} {numbers : List UInt32} :
    Calm (assignment ms numbers) := by
  induction ms generalizing numbers with
  | nil => exact preserves_pure
  | cons mem rest ih =>
    obtain ⟨r, choice⟩ := mem
    cases choice with
    | keep => exact preserves_bind ih fun _ => preserves_pure
    | reuse one | recycle one =>
      exact preserves_bind (calm_count fun _ => rfl) fun _ =>
        preserves_bind ih fun _ => preserves_pure
    | fresh =>
      cases numbers with
      | nil => exact preserves_stop
      | cons number numbers =>
        exact preserves_bind ih fun _ => preserves_pure

theorem calm_freshNumbers {needed : Nat} : Calm (freshNumbers needed) := by
  unfold freshNumbers
  split
  · exact preserves_pure
  · exact preserves_bind (calm_onProgram (Program.preserves_allocate needed))
      fun _ => preserves_pure

theorem calm_applyPlan : Calm (applyPlan k run ops plan) := by
  unfold applyPlan
  refine preserves_bind calm_freshNumbers fun numbers => ?_
  refine preserves_bind calm_assignment fun assigned => ?_
  refine preserves_bind calm_judge fun verdict => ?_
  split
  · exact preserves_stop
  · refine preserves_bind calm_commit fun _ => ?_
    refine preserves_bind calm_instruction fun inst => ?_
    refine preserves_bind preserves_lift fun ch => ?_
    exact preserves_bind calm_setInstruction fun _ =>
      preserves_bind (preserves_report rfl) fun _ => preserves_pure

theorem calm_remember {owned : Bool} : Calm (remember place v holder copy owned) :=
  preserves_bind (calm_onTracking quiet_modify) fun _ =>
    preserves_bind (calm_onTracking (quiet_recordCopy _ _ _ _ _)) fun _ => preserves_pure

theorem calm_rememberAll : Calm (rememberAll place copy pairs) := by
  induction pairs with
  | nil => exact preserves_pure
  | cons pair rest ih =>
    exact preserves_bind calm_remember fun _ => ih

theorem uncounted_hoistCopy : Uncounted (hoistCopy place v holder) := by
  unfold hoistCopy
  refine preserves_bind preserves_get fun walk => ?_
  split
  · refine preserves_bind uncounted_onProgram fun copy => ?_
    refine preserves_bind uncounted_onProgram fun _ => ?_
    refine preserves_bind (uncounted_count fun _ => rfl) fun _ => ?_
    exact preserves_bind (preserves_modify fun _ => rfl) fun _ => calm_remember.uncounted
  · exact preserves_stop

theorem uncounted_copyInFront : Uncounted (copyInFront place k pairs) := by
  unfold copyInFront
  refine preserves_bind preserves_lift fun copy => ?_
  refine preserves_bind uncounted_onProgram fun _ => ?_
  exact preserves_bind (uncounted_count fun _ => rfl) fun _ => calm_rememberAll.uncounted

theorem uncounted_copyIn {batches : List Batch} : Uncounted (copyIn place k pairs batches) := by
  induction batches with
  | nil => exact preserves_pure
  | cons batch rest ih =>
    cases batch with
    | hoist i =>
      rw [copyIn]
      split
      · exact preserves_bind uncounted_hoistCopy fun _ => ih
      · exact preserves_stop
    | inPlace start width =>
      exact preserves_bind uncounted_copyInFront fun _ => ih

theorem uncounted_copyOut {ms : List (Register × Register × Choice)} :
    Uncounted (copyOut k ms) := by
  induction ms generalizing k with
  | nil => exact preserves_pure
  | cons mem rest ih =>
    obtain ⟨v, holder, choice⟩ := mem
    unfold copyOut
    split
    · exact ih
    · refine preserves_bind uncounted_onProgram fun copy => ?_
      refine preserves_bind (uncounted_count fun _ => rfl) fun _ => ?_
      exact preserves_bind ih fun _ => preserves_pure

theorem uncounted_copyRun : Uncounted (copyRun place k run ops plan) := by
  unfold copyRun
  refine preserves_bind calm_applyPlan.uncounted fun assigned => ?_
  cases run.side with
  | source => exact preserves_bind uncounted_copyIn fun _ => preserves_pure
  | dest => exact preserves_bind uncounted_copyOut fun _ => preserves_pure

/-! ### Behind an instruction -/

theorem calm_recordPending {copy : PendingCopy} : Calm (recordPending place copy) :=
  preserves_bind (calm_onTracking quiet_modify) fun _ =>
    preserves_bind (calm_onTracking (quiet_recordCopy _ _ _ _ _)) fun _ => preserves_pure

theorem calm_recordAllPending {last : InstructionId} {copies : List PendingCopy} :
    Calm (recordAllPending place last copies) := by
  induction copies generalizing last with
  | nil => exact preserves_pure
  | cons copy rest ih =>
    exact preserves_bind calm_recordPending fun _ => ih

theorem calm_recordDeferred : Calm (recordDeferred place k) := by
  unfold recordDeferred
  refine preserves_bind preserves_get fun walk => ?_
  simp only
  split
  · exact preserves_bind (preserves_modify fun _ => rfl) fun _ => calm_recordPending
  · exact preserves_pure

theorem calm_recordBehind : Calm (do
      recordDeferred place k
      let last ← recordAllPending place k pending
      (← get).program.layout.nextOf last : Step Walk (Option InstructionId)) :=
  preserves_bind calm_recordDeferred fun _ =>
    preserves_bind calm_recordAllPending fun _ =>
      preserves_bind preserves_get fun _ => preserves_lift

theorem books_noteDefs (regs : List Register) (walk : Walk) :
    ((regs.foldl noteDef walk).looked, (regs.foldl noteDef walk).books) =
    (walk.looked, walk.books) := by
  induction regs generalizing walk with
  | nil => rfl
  | cons r rest ih => exact ih _

/-- Nothing is counted when an instruction is concluded. -/
theorem calm_conclude : Calm (conclude setting place k pending) := by
  unfold conclude
  refine preserves_bind calm_instruction fun inst => ?_
  refine preserves_bind (preserves_modify fun _ => rfl) fun _ => ?_
  refine preserves_bind (preserves_modify fun walk => books_noteDefs _ walk) fun _ => ?_
  split
  · refine preserves_bind (preserves_report rfl) fun _ => ?_
    exact preserves_bind (calm_onTracking quiet_clear) fun _ => calm_recordBehind
  · exact calm_recordBehind

end Walk

end RegisterChains

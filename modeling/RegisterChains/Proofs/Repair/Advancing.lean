/-
This file follows the lines that a walk has ahead of it. The walk changes the list that it walks
over, so neither the number of lines nor the position counts down. What does is how often the lines
ahead can still be visited: a line without runs once, and any other line once more for each move
that it may be replaced by and for each copy that it may leave behind it. The keys of lines that
were visited are not those of lines ahead, because no key is handed out twice. The lines in front of
the walk serve all their runs, because each run was committed and constraints only grow. So do the
copies that the walk puts there, whose destinations are part of a committed run.
-/

import RegisterChains.Proofs.Encodings
import RegisterChains.Proofs.Repair.Position

namespace RegisterChains

open List MachineSpec OperandRun Step Tracking

namespace Instruction

variable {inst ch : Instruction} {run : OperandRun}

/-- The destinations that an instruction could lose. -/
def slack (inst : Instruction) : Nat :=
  if inst.opcode = .smp then inst.dests.length else 0

theorem SameShape.slack_eq (same : inst.SameShape ch) : ch.slack = inst.slack := by
  unfold slack
  rw [same.opcode, same.dests]

theorem slack_lt_of_narrow (relaxed : relax inst run = .ok (some (.narrow ch))) :
    ch.slack < inst.slack := by
  obtain ⟨⟨isSample, _⟩, narrows, _⟩ := relax_eq_narrow relaxed
  obtain ⟨fewer, _, opcode, _⟩ := fewer_of_narrowSample narrows
  unfold slack
  rw [opcode, if_pos isSample, if_pos isSample]
  exact fewer

end Instruction

namespace Walk

variable {spec : MachineSpec} {options : Options} {level : Option Level} {setting : Setting}
  {place : UInt32} {k : InstructionId} {run : OperandRun} {walk after : Walk}
  {inst ch : Instruction} {ops : List Register} {pending copies : List PendingCopy}
  {placed hoists : List (Register × Register)} {lines : List Line} {fix : RunFix}

theorem Mends.sameShape {made : List Instruction} {next : UInt32}
    (mends : Mends ⟨spec.target, options, level⟩ walk run inst ops next placed hoists made ch
      copies) : inst.SameShape ch := by
  cases mends with
  | fits => exact ⟨rfl, rfl, rfl, rfl⟩
  | reordered reordered =>
    obtain ⟨_, _, _, _, reorders⟩ := reordered.order
    exact sameShape_of_reorder reorders
  | substituted substituted =>
    exact (sameShape_of_replace substituted.replaced).1
  | copiedIn _ replaced _ _ | copiedOut _ replaced _ =>
    exact (sameShape_of_replace replaced).1

/-! ### How often lines can be visited -/

/-- How often an instruction, the moves that replace it and the copies behind it can be visited. -/
def visits (inst : Instruction) : Nat :=
  if runs inst = [] then 1 else 1 + 2 * inst.dests.length

/-- How often lines can be visited in all. -/
def cost : List Line → Nat
  | [] => 0
  | line :: rest => visits line.2 + cost rest

@[simp] theorem cost_nil : cost [] = 0 := rfl

@[simp] theorem cost_cons (line : Line) (lines : List Line) :
    cost (line :: lines) = visits line.2 + cost lines := rfl

theorem cost_append (a b : List Line) : cost (a ++ b) = cost a + cost b := by
  induction a with
  | nil => exact (Nat.zero_add _).symm
  | cons line rest ih => rw [cons_append, cost_cons, cost_cons, ih, Nat.add_assoc]

theorem cost_plain (plain : ∀ line ∈ lines, runs line.2 = []) : cost lines = lines.length := by
  induction lines with
  | nil => rfl
  | cons line rest ih =>
    have one : visits line.2 = 1 := if_pos (plain line mem_cons_self)
    rw [cost_cons, one, ih fun other mem => plain other (mem_cons_of_mem line mem), length_cons,
      Nat.add_comm]

theorem visits_le (inst : Instruction) : visits inst ≤ 1 + 2 * inst.dests.length := by
  unfold visits
  split <;> omega

theorem visits_pos (inst : Instruction) : 1 ≤ visits inst := by
  unfold visits
  split <;> omega

/-- An instruction is replaced by a move for each destination. -/
theorem move_of_expand {sequence : List Instruction}
    (expands : relax inst run = .ok (some (.expand sequence))) :
    sequence.length ≤ inst.dests.length ∧
      ∀ one ∈ sequence, ∃ dest source, one = .move dest source := by
  obtain ⟨_, _, rfl⟩ := relax_eq_expand expands
  refine ⟨length_zipWith.trans_le (Nat.min_le_left ..), fun one mem => ?_⟩
  obtain ⟨i, isOne⟩ := getElem?_of_mem mem
  obtain ⟨dest, source, _, _, rfl⟩ := getElem?_zipWith_eq_some.mp isOne
  exact ⟨dest, source, rfl⟩

/-! ### New keys -/

theorem copyOut_fresh {ms : List (Register × Register × Choice)}
    (ran : (copyOut k ms).Yields walk copies after) : copies.length ≤ ms.length ∧
      ∀ copy ∈ copies, walk.program.instructions.size ≤ copy.instruction.index := by
  induction ms generalizing walk k copies with
  | nil =>
    obtain ⟨rfl, rfl⟩ := yields_pure.mp ran
    exact ⟨Nat.le_refl 0, forall_mem_nil _⟩
  | cons one rest ih =>
    obtain ⟨v, holder, choice⟩ := one
    rw [copyOut] at ran
    split at ran
    · obtain ⟨few, fresh⟩ := ih ran
      exact ⟨Nat.le_succ_of_le few, fresh⟩
    · obtain ⟨copy, prog, inserted, counting⟩ := yields_bind_of onProgram_yields ran
      have later := yields_count_bind.mp counting
      obtain ⟨copies', copiesRest, rfl⟩ := yields_bind_pure.mp later
      have adds := Program.insertAfter_yields inserted
      obtain ⟨few, fresh⟩ := ih copiesRest
      exact ⟨Nat.succ_le_succ few, forall_mem_cons.mpr ⟨adds.index_eq.ge, fun other mem =>
        Nat.le_trans adds.keeps.stored (fresh other mem)⟩⟩

/-- Copies are left behind an instruction for a run that it writes, and have keys of their own. -/
theorem Handled.fresh (found : run.operands inst = .ok ops)
    (handled : Handled setting place k run walk inst ops fix after) :
    fix.Leaves True (fun copies => copies.length ≤ inst.dests.length ∧
      (run.side = .source → copies = []) ∧
      ∀ copy ∈ copies, walk.program.instructions.size ≤ copy.instruction.index) fun _ => True := by
  cases handled with
  | fits | reordered | substituted | copiedIn => simp [RunFix.Leaves]
  | relaxed relaxed => cases relaxed <;> trivial
  | copiedOut side _ _ becomes copies =>
    obtain ⟨few, fresh⟩ := copyOut_fresh copies
    obtain ⟨before, behind, cuts⟩ := operands_eq_ok.mp found
    have list : inst.dests = before ++ ops ++ behind := by
      rw [← cuts.list, list, side]
    rw [becomes.program] at fresh
    refine ⟨?_, fun isSource => absurd (side.symm.trans isSource) (by decide), fun copy mem => ?_⟩
    · rw [length_zip] at few
      rw [list]
      simp only [length_append]
      omega
    · exact (Arena.size_set ..).ge.trans (fresh copy mem)

/-! ### The lines ahead -/

/-- The keys of the lines that were visited are not those of other lines, and will not be. -/
structure Unseen (seen : List InstructionId) (prog : Program) (lines : List Line) : Prop where
  distinct : seen.Nodup
  stored : ∀ key ∈ seen, key.index < prog.instructions.size
  apart : ∀ key ∈ seen, ∀ line ∈ lines, line.1 ≠ key

theorem Unseen.mono {seen : List InstructionId} {prog : Program} {lines' : List Line}
    (unseen : Unseen seen prog lines) (fewer : ∀ line ∈ lines', line ∈ lines) :
    Unseen seen prog lines' :=
  ⟨unseen.distinct, unseen.stored, fun k mem line isMem =>
    unseen.apart k mem line (fewer line isMem)⟩

/-- What an instruction keeps when a walk changes it, and what moves keep. -/
structure Lasting (spec : MachineSpec) (options : Options) (holds : Instruction → Prop) :
    Prop where
  move : ∀ dest source, holds (.move dest source)
  mended : ∀ {level walk run inst ops next placed hoists made changed copies},
    Mends ⟨spec.target, options, level⟩ walk run inst ops next placed hoists made changed
      copies → run ∈ runs inst → holds inst → holds changed
  narrowed : ∀ {run inst narrowed}, relax inst run = .ok (some (.narrow narrowed)) →
    holds inst → holds narrowed

theorem lasting_true (spec : MachineSpec) (options : Options) :
    Lasting spec options fun _ => True :=
  ⟨fun _ _ => trivial, fun _ _ _ => trivial, fun _ _ => trivial⟩

/-- Where a walk is, and what the lines ahead of it keep to. -/
structure Region (spec : MachineSpec) (options : Options) where
  order : List BlockId
  done : List BlockId
  later : List BlockId
  block : BlockId
  position : Position order (done ++ later) block
  holds : Instruction → Prop
  lasting : Lasting spec options holds

namespace Region

variable {region : Region spec options} {seen : List InstructionId} {ahead rest front : List Line}
  {left bound limit : Nat} {code : BlockId → List Line} {next : Option InstructionId}

/-- The lines ahead in the block and in the blocks that come later were not visited. Those in front
of the walk and in the blocks that are done serve their runs. -/
structure Ahead (region : Region spec options) (seen : List InstructionId) (walk : Walk)
    (ahead : List Line) (left : Nat) : Prop where
  sound : walk.tracking.Sound
  lines : ∃ front code, walk.program.Shows region.order code ∧ code region.block = front ++ ahead ∧
    Unseen seen walk.program (ahead ++ region.later.flatMap code) ∧
    cost (region.later.flatMap code) ≤ left ∧
    (∀ line ∈ ahead ++ region.later.flatMap code, region.holds line.2) ∧
    ∀ line ∈ front ++ region.done.flatMap code, walk.graph.ServesAll line.2

theorem Ahead.append {early late : List Line}
    (ahead : region.Ahead seen walk (early ++ late) left)
    (plain : ∀ line ∈ early, runs line.2 = []) : region.Ahead seen walk late left := by
  obtain ⟨sound, front, code, shown, split, unseen, room, held, served⟩ := ahead
  have fewer : ∀ line ∈ late ++ region.later.flatMap code,
      line ∈ early ++ late ++ region.later.flatMap code := by
    intro line mem
    rw [append_assoc]
    exact mem_append_right early mem
  refine ⟨sound, front ++ early, code, shown, by rw [split, append_assoc], unseen.mono fewer, room,
    fun line mem => held line (fewer line mem), fun line mem => ?_⟩
  rw [append_assoc, mem_append, mem_append] at mem
  rcases mem with old | new | old
  · exact served line (mem_append_left _ old)
  · exact ChainGraph.servesAll_of_plain (plain line new)
  · exact served line (mem_append_right _ old)

/-- There are keys for all lines that were visited and all lines ahead. -/
theorem Ahead.length_le (lines : region.Ahead seen walk ahead left) :
    seen.length + ahead.length ≤ walk.program.instructions.size := by
  obtain ⟨_, front, code, shown, split, unseen, _⟩ := lines
  have nodup := shown.arranged.nodup region.block
  rw [split, map_append] at nodup
  have distinct : (seen ++ ahead.map Prod.fst).Nodup := by
    refine nodup_append.mpr ⟨unseen.distinct, (nodup_append.mp nodup).2.1, ?_⟩
    rintro k mem _ isMem rfl
    obtain ⟨line, isAhead, isKey⟩ := mem_map.mp isMem
    exact unseen.apart k mem line (mem_append_left _ isAhead) isKey
  have few := Key.length_le distinct fun k mem => (mem_append.mp mem).elim (unseen.stored k) ?_
  · rwa [length_append, length_map] at few
  · rintro isMem
    obtain ⟨line, isAhead, rfl⟩ := mem_map.mp isMem
    exact Arena.index_lt_of_get?
      (shown.stored region.block line (split ▸ mem_append_right _ isAhead))

/-- A line that is visited is not ahead any more. -/
theorem pass {line : Line} (shown : walk.program.Shows region.order code)
    (split : code region.block = front ++ line :: rest)
    (unseen : Unseen seen walk.program (line :: rest ++ region.later.flatMap code)) :
    Unseen (line.1 :: seen) walk.program (rest ++ region.later.flatMap code) := by
  have here : line ∈ code region.block := by simp [split]
  have new : line.1 ∉ seen := fun mem => unseen.apart line.1 mem line mem_cons_self rfl
  refine ⟨nodup_cons.mpr ⟨new, unseen.distinct⟩, forall_mem_cons.mpr
    ⟨Arena.index_lt_of_get? (shown.stored region.block line here), unseen.stored⟩,
    forall_mem_cons.mpr ⟨fun one mem same => ?_, (unseen.mono fun _ => mem_cons_of_mem line).apart⟩⟩
  rcases mem_append.mp mem with behind | elsewhere
  · have nodup := shown.arranged.nodup region.block
    simp only [split, map_append, map_cons] at nodup
    exact (nodup_cons.mp (nodup_append.mp nodup).2.1).1 (same ▸ mem_map_of_mem behind)
  · obtain ⟨blk, isLater, isMem⟩ := mem_flatMap.mp elsewhere
    have same : region.block = blk := shown.arranged.block_unique (mem_map_of_mem here)
      (same ▸ mem_map_of_mem isMem)
    exact region.position.apart (mem_append_right _ (same ▸ isLater))

/-- The lines of the block change. Those ahead were there before or are new, and those in front
serve their runs. -/
theorem reworks {front' ahead' : List Line} {code' : BlockId → List Line}
    {hoists : List Instruction} (shown : walk.program.Shows region.order code)
    (unseen : Unseen seen walk.program (ahead ++ region.later.flatMap code))
    (room : cost (region.later.flatMap code) ≤ left)
    (held : ∀ line ∈ region.later.flatMap code, region.holds line.2)
    (served : ∀ line ∈ region.done.flatMap code, walk.graph.ServesAll line.2)
    (extends' : walk.Extends after)
    (reworks : walk.program.Reworks region.order code region.block (front' ++ ahead') hoists
      after.program code') (serves : ∀ line ∈ front', after.graph.ServesAll line.2)
    (new : ∀ line ∈ ahead', region.holds line.2 ∧ ((∃ old ∈ ahead, old.1 = line.1) ∨
      walk.program.instructions.size ≤ line.1.index)) : region.Ahead seen after ahead' left := by
  have elsewhere : ∀ one ∈ region.done ++ region.later, code' one = code one := fun one isOther =>
    reworks.elsewhere one (fun same => region.position.apart (same ▸ isOther))
      (shown.preamble_ne (region.position.behind one isOther))
  have same : region.later.flatMap code' = region.later.flatMap code :=
    flatMap_congr fun one isLater => elsewhere one (mem_append_right _ isLater)
  have done : region.done.flatMap code' = region.done.flatMap code :=
    flatMap_congr fun one isDone => elsewhere one (mem_append_left _ isDone)
  refine ⟨extends'.sound, front', code', reworks.shown, reworks.here, ⟨unseen.distinct,
    fun k mem => (unseen.stored k mem).trans_le extends'.keeps.stored,
    fun k mem line isMem => ?_⟩, same ▸ room, fun line isMem => ?_, fun line isMem =>
    (mem_append.mp isMem).elim (serves line) fun old =>
      (served line (done ▸ old)).refines extends'.refines⟩
  · have stored := unseen.stored k mem
    rw [same] at isMem
    rcases mem_append.mp isMem with here | elsewhere
    · rcases (new line here).2 with ⟨old, isAhead, isOld⟩ | fresh
      · exact isOld ▸ unseen.apart k mem old (mem_append_left _ isAhead)
      · rintro rfl
        omega
    · exact unseen.apart k mem line (mem_append_right _ elsewhere)
  · rw [same] at isMem
    exact (mem_append.mp isMem).elim (fun here => (new line here).1) (held line)

/-- What handling a run does to the lines ahead. -/
theorem Ahead.handled (ahead : region.Ahead seen walk ((k, inst) :: rest) left)
    {runs : List OperandRun} (waiting : Left walk.graph inst (run :: runs))
    (found : run.operands inst = .ok ops)
    (handled : Handled ⟨spec.target, options, level⟩ place k run walk inst ops fix after) :
    fix.Leaves (∃ narrowed, region.Ahead seen after ((k, narrowed) :: rest) left ∧
        relax inst run = .ok (some (.narrow narrowed)))
      (fun copies => ∃ ch, region.Ahead seen after
        ((k, ch) :: (copies.map PendingCopy.line ++ rest)) left ∧ Left after.graph ch runs ∧
          inst.SameShape ch ∧ copies.length ≤ inst.dests.length ∧
          (run.side = .source → copies = []))
      (fun resume => ∃ lines, region.Ahead (k :: seen) after (lines ++ rest) left ∧
        relax inst run = .ok (some (.expand (lines.map Prod.snd))) ∧
          resume = (lines ++ rest).head?.map Prod.fst) := by
  obtain ⟨sound, front, code, shown, split, unseen, room, held, served⟩ := ahead
  have extends' := handled.extends sound
  have before : ∀ line ∈ front, after.graph.ServesAll line.2 :=
    fun line mem => (served line (mem_append_left _ mem)).refines extends'.refines
  have done : ∀ line ∈ region.done.flatMap code, walk.graph.ServesAll line.2 :=
    fun line mem => served line (mem_append_right _ mem)
  have fresh := handled.fresh found
  have mends := handled.mends sound shown region.position.body split found
  have old : ∀ line ∈ rest, region.holds line.2 := fun line mem => held line (by simp [mem])
  have elsewhere : ∀ line ∈ region.later.flatMap code, region.holds line.2 :=
    fun line mem => held line (mem_append_right _ mem)
  -- What stands ahead stood there before, or it has a key that was not given away yet.
  have stays : ∀ {ch} {copies : List PendingCopy}, region.holds ch →
      (∀ copy ∈ copies, walk.program.instructions.size ≤ copy.instruction.index) →
      ∀ line ∈ (k, ch) :: (copies.map PendingCopy.line ++ rest), region.holds line.2 ∧
        ((∃ old ∈ (k, inst) :: rest, old.1 = line.1) ∨
          walk.program.instructions.size ≤ line.1.index) := by
    intro ch copies holds fresh line mem
    rcases mem_cons.mp mem with rfl | behind
    · exact ⟨holds, .inl ⟨(k, inst), mem_cons_self, rfl⟩⟩
    · rcases mem_append.mp behind with copied | isOld
      · obtain ⟨copy, isCopy, rfl⟩ := mem_map.mp copied
        exact ⟨region.lasting.move .., .inr (fresh copy isCopy)⟩
      · exact ⟨old line isOld, .inl ⟨line, mem_cons_of_mem _ isOld, rfl⟩⟩
  have here : region.holds inst := held (k, inst) (by simp)
  cases fix with
  | holds | copiedOut copies =>
    obtain ⟨_, _, _, lines, ch, code', _, mends, _, reworked, _, differs, answers, serves⟩ := mends
    have own := waiting.own run mem_cons_self
    exact ⟨ch, reworks shown unseen room elsewhere done extends' reworked
      (fun line mem => (mem_append.mp mem).elim (before line) (serves line))
      (stays (region.lasting.mended mends own here) fresh.2.2),
      waiting.next differs extends'.refines answers, mends.sameShape, fresh.1, fresh.2.1⟩
  | narrowed =>
    obtain ⟨narrowed, code', relaxes, _, reworked⟩ := mends
    exact ⟨narrowed, reworks shown unseen room elsewhere done extends' reworked before
      (@stays _ [] (region.lasting.narrowed relaxes here) (forall_mem_nil _)), relaxes⟩
  | replaced resume =>
    obtain ⟨lines, code', expands, _, reworked, fresh, isResume⟩ := mends
    rw [append_assoc] at reworked
    refine ⟨lines, reworks shown (pass shown split unseen) room elsewhere done extends' reworked
      before fun line mem => ?_, expands, isResume⟩
    rcases mem_append.mp mem with made | isOld
    · obtain ⟨dest, source, isMove⟩ := (move_of_expand expands).2 line.2 (mem_map_of_mem made)
      exact ⟨isMove ▸ region.lasting.move .., .inr (fresh line made)⟩
    · exact ⟨old line isOld, .inl ⟨line, isOld, rfl⟩⟩

/-! ### Visiting a line -/

/-- The walk stands at the first line ahead, and there are no more visits than the lines allow. -/
def AheadAt (region : Region spec options) (bound : Nat) (seen : List InstructionId) (walk : Walk)
    (next : Option InstructionId) : Prop :=
  ∃ ahead left, region.Ahead seen walk ahead left ∧ seen.length + cost ahead + left ≤ bound ∧
    next = ahead.head?.map Prod.fst

/-- The runs of an instruction that are left to handle. Either none was handled, or those that are
left are read, and then the instruction is not narrowed any more and leaves no more copies behind
it. Each destination that it could lose counts for the two runs that are looked at when it starts
over. -/
structure Visits (region : Region spec options) (seen : List InstructionId) (bound limit : Nat)
    (key : InstructionId) (walk : Walk) (pending : List PendingCopy) (runs : List OperandRun)
    (inst : Instruction) (rest : List Line) (left : Nat) : Prop where
  ahead : region.Ahead seen walk ((key, inst) :: (pending.map PendingCopy.line ++ rest)) left
  waiting : Left walk.graph inst runs
  counted : walk.looked + 2 * inst.slack + runs.length ≤ limit
  room : (runs = MachineSpec.runs inst ∧ pending = [] ∧
      seen.length + visits inst + cost rest + left ≤ bound) ∨
    (∀ run ∈ runs, run.side = .source) ∧
      seen.length + 1 + pending.length + inst.dests.length + cost rest + left ≤ bound

theorem runs_pending (pending : List PendingCopy) :
    ∀ line ∈ pending.map PendingCopy.line, runs line.2 = [] := by
  intro line mem
  obtain ⟨copy, _, rfl⟩ := mem_map.mp mem
  exact runs_move ..

def visiting (region : Region spec options) (level : Option Level) (place : UInt32)
    (k : InstructionId) (seen : List InstructionId) (bound limit : Nat) :
    Invariant ⟨spec.target, options, level⟩ place k where
  before walk pending := pending = [] ∧ ∃ inst rest left,
    region.Ahead seen walk ((k, inst) :: rest) left ∧ walk.looked + 2 * (inst.slack + 1) ≤ limit ∧
      seen.length + visits inst + cost rest + left ≤ bound
  during walk pending runs := ∃ inst rest left,
    region.Visits seen bound limit k walk pending runs inst rest left
  gone walk _ resume := region.AheadAt bound (k :: seen) walk resume ∧ walk.looked ≤ limit
  begins := by
    rintro walk _ inst ⟨rfl, one, rest, left, ahead, counted, room⟩ found
    obtain ⟨front, code, shown, split, _⟩ := ahead.lines
    cases found.symm.trans (shown.instruction_of_split split)
    rw [runsInOrder_eq]
    have few := length_runs_le inst
    exact ⟨inst, rest, left, ahead, ⟨fun _ mem => mem, fun _ => .inl⟩, by omega,
      .inl ⟨rfl, rfl, room⟩⟩
  step := by
    rintro walk after pending inst run runs ops fix
      ⟨one, rest, left, ahead, waiting, counted, room⟩ found isOperands handled looked
    obtain ⟨front, code, shown, split, _⟩ := ahead.lines
    cases found.symm.trans (shown.instruction_of_split split)
    have goes := ahead.handled waiting isOperands handled
    rw [length_cons] at counted
    have read : ∀ other ∈ runs, other.side = .source := by
      rcases room with ⟨all, _⟩ | ⟨read, _⟩
      · intro other mem
        exact side_of_mem_tail (all ▸ mem : other ∈ (MachineSpec.runs inst).tail)
      · exact fun other mem => read other (mem_cons_of_mem run mem)
    have written : run.side = .dest → pending = [] ∧
        seen.length + 1 + 2 * inst.dests.length + cost rest + left ≤ bound := by
      intro side
      rcases room with ⟨all, isPending, room⟩ | ⟨read, _⟩
      · rw [visits, if_neg (all ▸ cons_ne_nil run runs)] at room
        exact ⟨isPending, by omega⟩
      · cases side.symm.trans (read run mem_cons_self)
    have room : seen.length + 1 + pending.length + inst.dests.length + cost rest + left ≤
        bound := by
      rcases room with ⟨all, rfl, room⟩ | ⟨_, room⟩
      · rw [visits, if_neg (all ▸ cons_ne_nil run runs)] at room
        simp only [length_nil]
        omega
      · exact room
    have goesOn : ∀ copies : List PendingCopy, (∃ ch, region.Ahead seen after
        ((k, ch) :: (copies.map PendingCopy.line ++ (pending.map PendingCopy.line ++ rest))) left ∧
          Left after.graph ch runs ∧ inst.SameShape ch ∧ copies.length ≤ inst.dests.length ∧
          (run.side = .source → copies = [])) → ∃ inst rest left, region.Visits seen bound
        limit k after (pending ++ copies) runs inst rest left := by
      rintro copies ⟨ch, ahead, waiting, same, few, none⟩
      refine ⟨ch, rest, left, ?_, waiting, ?_, .inr ⟨read, ?_⟩⟩
      · -- Only a run that is written leaves copies, and it is the first one.
        cases side : run.side with
        | source =>
          obtain rfl := none side
          rwa [append_nil]
        | dest =>
          obtain ⟨rfl, _⟩ := written side
          exact ahead
      · rw [same.slack_eq]
        omega
      · rw [same.dests, length_append]
        cases side : run.side with
        | source =>
          rw [none side, length_nil]
          omega
        | dest =>
          obtain ⟨rfl, room⟩ := written side
          rw [length_nil]
          omega
    cases fix with
    | holds => exact goesOn [] goes
    | copiedOut copies => exact goesOn copies goes
    | narrowed =>
      obtain ⟨narrowed, ahead, relaxes⟩ := goes
      obtain ⟨⟨_, side⟩, _, _, _, sublist⟩ := relax_eq_narrow relaxes
      obtain ⟨rfl, room⟩ := written side
      have fewer := sublist.length_le
      have losing := Instruction.slack_lt_of_narrow relaxes
      have few := visits_le narrowed
      exact ⟨rfl, narrowed, rest, left, ahead, by omega, by omega⟩
    | replaced resume =>
      obtain ⟨lines, ahead, expands, isResume⟩ := goes
      obtain ⟨few, moves⟩ := move_of_expand expands
      have plain : ∀ line ∈ lines, MachineSpec.runs line.2 = [] := by
        intro line mem
        obtain ⟨dest, source, isMove⟩ := moves line.2 (mem_map_of_mem mem)
        exact isMove ▸ runs_move ..
      rw [length_map] at few
      refine ⟨⟨_, left, ahead, ?_, isResume⟩, by omega⟩
      rw [cost_append, cost_append, cost_plain plain, cost_plain (runs_pending pending), length_map,
        length_cons]
      omega

/-- An instruction whose runs were handled is behind the walk. -/
theorem Ahead.conclude
    (ahead : region.Ahead seen walk ((k, inst) :: (pending.map PendingCopy.line ++ rest)) left)
    (serves : walk.graph.ServesAll inst) (room : seen.length + 1 + cost rest + left ≤ bound)
    (ran : (conclude setting place k pending).Yields walk next after) :
    region.AheadAt bound (k :: seen) after next := by
  obtain ⟨sound, front, code, shown, split, unseen, fits, held, served⟩ := ahead
  obtain ⟨_, _, learns, isNext, _⟩ := conclude_yields sound (shown.instruction_of_split split) ran
  cases (nextOf_behind shown split).symm.trans isNext
  have passed : region.Ahead (k :: seen) after (pending.map PendingCopy.line ++ rest) left := by
    refine ⟨learns.sound, front ++ [(k, inst)], code, learns.program ▸ shown,
      by rw [split, append_assoc, singleton_append], learns.program ▸ pass shown split unseen, fits,
      fun line mem => held line (mem_cons_of_mem _ mem), fun line mem => ?_⟩
    refine ChainGraph.ServesAll.refines ?_ learns.extends.refines
    rw [append_assoc, mem_append, singleton_append, mem_cons] at mem
    rcases mem with old | rfl | old
    · exact served line (mem_append_left _ old)
    · exact serves
    · exact served line (mem_append_right _ old)
  exact ⟨rest, left, passed.append (runs_pending pending), room, rfl⟩

/-- A line that is visited first. -/
theorem AheadAt.line (ahead : region.AheadAt bound seen walk (some k)) :
    ∃ inst rest left, region.Ahead seen walk ((k, inst) :: rest) left ∧
      seen.length + visits inst + cost rest + left ≤ bound := by
  obtain ⟨ahead, left, isAhead, room, isKey⟩ := ahead
  cases ahead with
  | nil => cases isKey
  | cons line rest =>
    obtain rfl : k = line.1 := Option.some_inj.mp isKey
    rw [cost_cons, ← Nat.add_assoc] at room
    exact ⟨line.2, rest, left, isAhead, room⟩

/-- The walk is one instruction further after each visit. -/
theorem Ahead.visit (ahead : region.Ahead seen walk ((k, inst) :: rest) left)
    (room : seen.length + visits inst + cost rest + left ≤ bound)
    (ran : (visit ⟨spec.target, options, level⟩ place k).Yields walk next after) :
    region.AheadAt bound (k :: seen) after next ∧
      after.looked ≤ walk.looked + 2 * (inst.slack + 1) := by
  obtain ⟨mid, copies, ⟨inst, rest, left, ahead, none, counted, room⟩, concludes⟩ |
    ⟨mid, copies, ⟨⟨ahead, left, isAhead, room, isNext⟩, counted⟩, rfl⟩ :=
    (visiting region level place k seen bound (walk.looked + 2 * (inst.slack + 1))).visit
      ⟨rfl, inst, rest, left, ahead, Nat.le_refl _, room⟩ ran
  · have looked : after.looked = mid.looked := concludes.leaves_eq ▸ (calm_conclude.uncounted mid).1
    refine ⟨ahead.conclude none.all ?_ concludes, by omega⟩
    have one := visits_pos inst
    rcases room with ⟨_, _, room⟩ | ⟨_, room⟩ <;> omega
  · exact ⟨⟨ahead, left, ⟨isAhead.sound, isAhead.lines⟩, room, isNext⟩, counted⟩

end Region

end Walk

/-! ### Walking over a block -/

namespace Pass

open Walk

variable {spec : MachineSpec} {options : Options} {setting : Setting} {bound : Nat}
  {seen : List InstructionId} {pass after : Pass} {first : Option InstructionId}

/-- The lines of the blocks ahead were not visited, and those of the blocks that are done serve
their runs. -/
structure Ahead (holds : Instruction → Prop) (order done blocks : List BlockId) (bound : Nat)
    (seen : List InstructionId) (pass : Pass) : Prop where
  sound : pass.graph.Sound
  unmarked : Unmarked pass.graph
  lines : ∃ code, pass.program.Shows order code ∧ Unseen seen pass.program (blocks.flatMap code) ∧
    seen.length + cost (blocks.flatMap code) ≤ bound ∧
    (∀ line ∈ blocks.flatMap code, holds line.2) ∧
    ∀ line ∈ done.flatMap code, pass.graph.ServesAll line.2

/-- The walk over a block starts at its first line. -/
theorem Ahead.starts (region : Region spec options)
    (ahead : Ahead region.holds region.order region.done (region.block :: region.later) bound seen
      pass)
    (isFirst : pass.program.layout.firstOf region.block = .ok first) :
    region.AheadAt bound seen ⟨pass, .empty region.block, []⟩ first := by
  obtain ⟨code, shown, unseen, room, held, served⟩ := ahead.lines
  obtain ⟨_, rfl⟩ := shown.arranged.firstOf_eq.mp isFirst
  have sound := sound_empty ahead.sound ahead.unmarked region.block
  rw [flatMap_cons] at unseen room held
  rw [cost_append, ← Nat.add_assoc] at room
  exact ⟨code region.block, _, ⟨sound, [], code, shown, rfl, unseen, Nat.le_refl _, held, served⟩,
    room, head?_map ..⟩

/-- The walk over a block ends in front of the blocks that come later. -/
theorem Ahead.ends (region : Region spec options)
    (ahead : Ahead region.holds region.order region.done (region.block :: region.later) bound seen
      pass)
    (isFirst : pass.program.layout.firstOf region.block = .ok first)
    (ran : (resolveBlock setting region.block).Yields pass () after) :
    ∃ walked,
      (visitFrom setting 0xffffffff first).Yields ⟨pass, .empty region.block, []⟩ () walked ∧
      after.stats.checked = walked.looked ∧ ∀ seen', region.AheadAt bound seen' walked none →
        Ahead region.holds region.order (region.block :: region.done) region.later bound
        seen' after := by
  have extends' := resolveBlock_extends ahead.sound ahead.unmarked ran
  obtain ⟨_, walked, finished, isFirst', visits, finishes, rfl⟩ := resolveBlock_yields ran
  cases isFirst.symm.trans isFirst'
  refine ⟨walked, visits, finishes.leaves_eq ▸
    ((calm_onTracking quiet_finish).uncounted walked).1, fun seen' there => ?_⟩
  obtain ⟨ahead, left, ⟨sound, front, code, shown, split, unseen, fits, held, served⟩, room,
    isNone⟩ := there
  obtain rfl : ahead = [] := by
    cases ahead with
    | nil => rfl
    | cons line rest => cases isNone
  obtain ⟨alike, _, same, _⟩ := finish_extends sound finishes
  rw [← same] at shown unseen
  rw [cost_nil] at room
  refine ⟨extends'.refines.sound, extends'.unmarked, code, shown, unseen, by omega, held,
    fun line mem => ?_⟩
  rw [flatMap_cons, split, append_nil] at mem
  exact (served line mem).refines alike.refines

/-- What is done need not be remembered. -/
theorem Ahead.forget {holds : Instruction → Prop} {order done blocks : List BlockId}
    (ahead : Ahead holds order done blocks bound seen pass) :
    Ahead holds order [] blocks bound seen pass := by
  obtain ⟨sound, unmarked, code, shown, unseen, room, held, _⟩ := ahead
  exact ⟨sound, unmarked, code, shown, unseen, room, held, forall_mem_nil _⟩

/-! ### Blocks that are done -/

/-- The blocks that were walked over serve their runs. -/
structure Served (order done : List BlockId) (pass : Pass) : Prop where
  sound : pass.graph.Sound
  unmarked : Unmarked pass.graph
  lines : ∃ code, pass.program.Shows order code ∧
    ∀ block ∈ done, ∀ line ∈ code block, pass.graph.ServesAll line.2

theorem resolveBlock_serves {order done : List BlockId} {blk : BlockId} {level : Option Level}
    (pos : Position order done blk) (served : Served order done pass)
    (ran : (resolveBlock ⟨spec.target, options, level⟩ blk).Yields pass () after) :
    Served order (blk :: done) after := by
  obtain ⟨sound, unmarked, code, shown, serves⟩ := served
  let region : Region spec options :=
    ⟨order, done, [], blk, (append_nil done).symm ▸ pos, fun _ => True, lasting_true spec options⟩
  have ahead : Ahead region.holds order done [blk] (cost ([blk].flatMap code)) [] pass :=
    ⟨sound, unmarked, code, shown, ⟨nodup_nil, forall_mem_nil _, forall_mem_nil _⟩,
      (Nat.zero_add _).le, fun _ _ => trivial, fun line mem =>
      (mem_flatMap.mp mem).elim fun one both => serves one both.1 line both.2⟩
  obtain ⟨first, _, _, isFirst, _⟩ := resolveBlock_yields ran
  obtain ⟨walked, visits, _, ends⟩ := ahead.ends region isFirst ran
  obtain ⟨seen, there⟩ := visitFrom_keeps (fun walk next => ∃ seen, region.AheadAt _ seen walk next)
    (fun ⟨_, standing⟩ visits =>
      have ⟨_, _, _, isAhead, room⟩ := standing.line
      ⟨_, (isAhead.visit room visits).1⟩) ⟨[], ahead.starts region isFirst⟩ visits
  obtain ⟨sound', unmarked', code', shown', _, _, _, serves'⟩ := ends seen there
  exact ⟨sound', unmarked', code', shown', fun one isDone line mem =>
    serves' line (mem_flatMap.mpr ⟨one, isDone, mem⟩)⟩

end Pass

end RegisterChains

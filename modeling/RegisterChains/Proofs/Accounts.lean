/-
This file proves that the counts account for every instruction that is added. Instructions enter
the program at few places, and next to each of them something is counted: a copy in the body, a
copy in the preamble, a copy for a descriptor, or the note of an expansion. What has been added
and not been counted yet is owed, and nothing is owed between two runs.
-/

import Mathlib.Algebra.Ring.Int.Defs
import RegisterChains.Proofs.Allocation

namespace RegisterChains

open ChainGraph Function List Program Step Tracking

/-- How many more instructions there are after what a note says. -/
def Note.growth : Note → Int
  | .expanded _ count => count - 1
  | _ => 0

/-- How many more instructions there are after what some notes say. -/
def growth (notes : List Note) : Int := (notes.map Note.growth).sum

theorem growth_append (notes made : List Note) :
    growth (notes ++ made) = growth notes + growth made := by
  unfold growth
  rw [map_append, sum_append]

theorem growth_of_quiet {notes : List Note} (quiet : ∀ note ∈ notes, note.isExpansion = false) :
    growth notes = 0 := by
  induction notes with
  | nil => rfl
  | cons note rest ih =>
    obtain ⟨plain, quiet⟩ := forall_mem_cons.mp quiet
    refine (congrArg (note.growth + ·) (ih quiet)).trans ?_
    cases note with
    | expanded => cases plain
    | _ => rfl

/-- How a program was laid out at first. -/
structure Survey where
  target : Target
  order : List BlockId
  contents : BlockId → List InstructionId
  preamble : Option BlockId

variable {survey : Survey} {owed aside : Int} {cs : BlockId → List InstructionId} {blk : BlockId}
  {keys : List InstructionId} {k : InstructionId} {order blocks : List BlockId} {inst : Instruction}
  {prog : Program} {α : Type} {step : Step Program InstructionId} {sequence : List Instruction}
  {v : Register}

/-- An expansion that is noted is one that the target proposed. -/
def Survey.Explains (survey : Survey) (notes : List Note) : Prop :=
  ∀ k count, .expanded k count ∈ notes → ∃ inst run sequence,
    survey.target.relax inst run = .ok (some (.expand sequence)) ∧ sequence.length = count

theorem length_update (nodup : order.Nodup) (mem : blk ∈ order) (lines : List InstructionId) :
    ((order.flatMap (update cs blk lines)).length : Int) =
      (order.flatMap cs).length + (lines.length - (cs blk).length) := by
  induction order with
  | nil => cases mem
  | cons head rest ih =>
    obtain ⟨absent, nodup⟩ := nodup_cons.mp nodup
    have elsewhere : blk ∉ rest → rest.flatMap (update cs blk lines) = rest.flatMap cs :=
      fun absent => flatMap_congr fun one isMem =>
      update_of_ne (by rintro rfl; exact absent isMem) ..
    simp only [flatMap_cons, length_append]
    rcases mem_cons.mp mem with rfl | later
    · rw [update_self, elsewhere absent]
      push_cast
      omega
    · rw [update_of_ne (by rintro rfl; exact absent later)]
      have counted := ih nodup later
      push_cast
      omega

/-! ### Sequences -/

namespace Program

variable {prog after : Program} {order : List BlockId} {front back : List InstructionId}
  {sequence : List Instruction}

theorem insertAllBefore_arranges (arranged : prog.layout.Arranged order cs)
    (split : cs blk = front ++ k :: back)
    (ran : (insertAllBefore k sequence).Yields prog keys after) :
    keys.length = sequence.length ∧ after.preamble = prog.preamble ∧
    prog.layout.Keeps after.layout ∧
      after.layout.Arranged order (update cs blk (front ++ keys ++ k :: back)) := by
  induction sequence generalizing prog cs front keys with
  | nil =>
    obtain ⟨rfl, rfl⟩ := yields_pure.mp ran
    rw [append_nil, ← split, update_eq_self]
    exact ⟨rfl, rfl, fun _ ends known => ⟨ends, known⟩, arranged⟩
  | cons inst rest ih =>
    obtain ⟨key, mid, inserts, ran⟩ := yields_bind.mp ran
    obtain ⟨others, more, rfl⟩ := yields_bind_pure.mp ran
    obtain ⟨_, layout, _, placed, rfl⟩ := insertBefore_yields inserts
    obtain ⟨length, preamble, keeps, arranged'⟩ :=
      ih (arranged.insertBefore split placed) update_split more
    rw [update_idem, append_assoc front, singleton_append] at arranged'
    exact ⟨congrArg (· + 1) length, preamble, fun one ends known =>
      ((Layout.insertBefore_inserts arranged split placed).keeps one ends known).elim (keeps one),
      arranged'⟩

theorem replace_arranges (arranged : prog.layout.Arranged order cs)
    (split : cs blk = front ++ k :: back) (ran : (replace k sequence).Yields prog keys after) :
    keys.length = sequence.length ∧ after.preamble = prog.preamble ∧
    prog.layout.Keeps after.layout ∧
      after.layout.Arranged order (update cs blk (front ++ keys ++ back)) := by
  obtain ⟨inserted, mid, inserts, ran⟩ := yields_bind.mp ran
  obtain ⟨_, removes, rfl⟩ := yields_bind_pure.mp ran
  obtain ⟨length, preamble, keeps, arranged⟩ := insertAllBefore_arranges arranged split inserts
  obtain ⟨layout, removed, rfl⟩ := changeLayout_yields.mp removes
  have arranged' := arranged.remove (update_self ..) removed
  rw [update_idem] at arranged'
  exact ⟨length, preamble, fun one ends known => (keeps one ends known).elim
    ((Layout.remove_removes arranged (update_self ..) removed).keeps one), arranged'⟩

end Program

namespace Pass

variable {pass after : Pass} {notes made : List Note}

/-- The blocks consist of these instructions, and there are as many as the counts and the notes
say, but for some that are owed in the body and in the preamble. -/
structure Accounts (survey : Survey) (owed aside : Int) (cs : BlockId → List InstructionId)
    (pass : Pass) (notes : List Note) : Prop where
  arranged : pass.program.layout.Arranged survey.order cs
  preamble : pass.program.preamble = survey.preamble
  apart : ∀ block ∈ survey.preamble, block ∉ survey.order
  known : ∀ block ∈ survey.preamble, ∃ ends, pass.program.layout.blocks.get? block = some ends
  body : ((survey.order.flatMap cs).length : Int) = (survey.order.flatMap survey.contents).length +
    pass.stats.seedCopies + pass.stats.copies + growth notes + owed
  hoisted : ∀ block ∈ survey.preamble,
    ((cs block).length : Int) = (survey.contents block).length + pass.stats.hoisted + aside
  bare : survey.preamble = none → pass.stats.hoisted = 0
  explained : survey.Explains notes

section

variable (accounts : pass.Accounts survey owed aside cs notes)

include accounts

theorem Accounts.calm (same : after.books = pass.books)
    (quiet : ∀ note ∈ made, note.isExpansion = false) :
    after.Accounts survey owed aside cs (notes ++ made) := by
  obtain ⟨arranged, preamble, apart, known, body, hoisted, bare, explained⟩ := accounts
  simp only [books, frame, Prod.mk.injEq] at same
  obtain ⟨⟨layout, isPreamble⟩, copies, hoists, seeds⟩ := same
  refine ⟨layout ▸ arranged, isPreamble.trans preamble, apart, layout ▸ known, ?_, ?_, ?_, ?_⟩
  · rw [growth_append, growth_of_quiet quiet, seeds, copies, Int.add_zero]
    exact body
  · rw [hoists]
    exact hoisted
  · rw [hoists]
    exact bare
  · intro k count mem
    rcases mem_append.mp mem with early | late
    · exact explained k count early
    · cases quiet _ late

/-- A block of the body gets other lines. -/
theorem Accounts.rearranged (body : blk ∈ survey.order) {lines : List InstructionId}
    (arranged : prog.layout.Arranged survey.order (update cs blk lines))
    (keeps : pass.program.layout.Keeps prog.layout) (same : prog.preamble = pass.program.preamble) :
    Accounts survey (owed + (lines.length - (cs blk).length)) aside (update cs blk lines)
      { pass with program := prog } notes := by
  refine ⟨arranged, same.trans accounts.preamble, accounts.apart, fun block mem =>
    (accounts.known block mem).elim (keeps block), ?_, ?_, accounts.bare, accounts.explained⟩
  · have counted := accounts.body
    rw [length_update accounts.arranged.orderNodup body]
    simp only
    omega
  · intro block isPreamble
    rw [update_of_ne]
    · exact accounts.hoisted block isPreamble
    · rintro rfl
      exact accounts.apart block isPreamble body

/-- The preamble gets one more line. -/
theorem Accounts.appended (isPreamble : blk ∈ survey.preamble)
    (arranged : prog.layout.Arranged survey.order (update cs blk (cs blk ++ [k])))
    (keeps : pass.program.layout.Keeps prog.layout) (same : prog.preamble = pass.program.preamble) :
    Accounts survey owed (aside + 1) (update cs blk (cs blk ++ [k]))
      { pass with program := prog } notes := by
  have elsewhere : survey.order.flatMap (update cs blk (cs blk ++ [k])) =
      survey.order.flatMap cs := flatMap_congr fun one mem => update_of_ne (by
    rintro rfl
    exact accounts.apart one isPreamble mem) ..
  refine ⟨arranged, same.trans accounts.preamble, accounts.apart, fun block mem =>
    (accounts.known block mem).elim (keeps block), ?_, fun block isBlock => ?_, accounts.bare,
    accounts.explained⟩
  · rw [elsewhere]
    exact accounts.body
  · have counted := accounts.hoisted block isBlock
    cases isPreamble.symm.trans isBlock
    rw [update_self, length_append, length_singleton]
    push_cast
    omega

/-- Some of what is owed is counted. -/
theorem Accounts.counted {stats : Stats}
    {owed' aside' : Int} (copies : (stats.seedCopies + stats.copies + owed' : Int) =
      pass.stats.seedCopies + pass.stats.copies + owed)
    (hoists : (stats.hoisted + aside' : Int) = pass.stats.hoisted + aside)
    (bare : survey.preamble = none → stats.hoisted = pass.stats.hoisted) :
    Accounts survey owed' aside' cs { pass with stats := stats } notes := by
  refine ⟨accounts.arranged, accounts.preamble, accounts.apart, accounts.known, ?_,
    fun blk isPreamble => ?_, fun none => (bare none).trans (accounts.bare none),
    accounts.explained⟩
  · have counted := accounts.body
    simp only
    omega
  · have counted := accounts.hoisted blk isPreamble
    simp only
    omega

/-- A sequence that took the place of an instruction is noted. -/
theorem Accounts.expanded {run : OperandRun}
    (relaxes : survey.target.relax inst run = .ok (some (.expand sequence))) (k : InstructionId) :
    pass.Accounts survey (owed - (sequence.length - 1)) aside cs
      (notes ++ [.expanded k sequence.length]) := by
  refine ⟨accounts.arranged, accounts.preamble, accounts.apart, accounts.known, ?_,
    accounts.hoisted, accounts.bare, ?_⟩
  · have counted := accounts.body
    have more : growth [.expanded k sequence.length] = (sequence.length : Int) - 1 := Int.add_zero _
    rw [growth_append, more]
    omega
  · intro key count mem
    rcases mem_append.mp mem with early | late
    · exact accounts.explained key count early
    · cases mem_singleton.mp late
      exact ⟨inst, run, sequence, relaxes, rfl⟩

end

end Pass

/-! ### What a walk adds -/

/-- The instructions known to be in a block once a run was handled. -/
def RunFix.known (keys : List InstructionId) : RunFix → List InstructionId
  | .holds | .narrowed => keys
  | .copiedOut copies => copies.map PendingCopy.instruction ++ keys
  | .replaced resume => resume.toList

namespace Walk

variable {setting : Setting} {place : UInt32} {run : OperandRun} {ops : List Register}
  {walk after : Walk} {notes : List Note} {pending : List PendingCopy} {last : InstructionId}

/-- The counts account for all instructions but those that are owed, and some instructions stand
in a block. -/
def Accounted (survey : Survey) (blk : BlockId) (owed aside : Int) (keys : List InstructionId)
    (walk : Walk) (notes : List Note) : Prop :=
  ∃ cs, walk.toPass.Accounts survey owed aside cs notes ∧ ∀ k ∈ keys, k ∈ cs blk

/-- A step that starts with nothing owed ends so, and some instructions stand in a block then. -/
abbrev Balances {α : Type} (survey : Survey) (blk : BlockId) (keys : List InstructionId)
    (step : Step Walk α) (known : α → List InstructionId) : Prop :=
  step.Leads (Accounted survey blk 0 0 keys) fun v => Accounted survey blk 0 0 (known v)

theorem Accounted.mono (accounted : Accounted survey blk owed aside keys walk notes)
    {keys' : List InstructionId} (fewer : ∀ k ∈ keys', k ∈ keys) :
    Accounted survey blk owed aside keys' walk notes :=
  accounted.imp fun _ both => ⟨both.1, fun k mem => both.2 k (fewer k mem)⟩

theorem Calm.leads {step : Step Walk α} (calm : Calm step) :
    step.Leads (Accounted survey blk owed aside keys) fun _ =>
      Accounted survey blk owed aside keys := by
  rintro walk notes ⟨cs, accounts, here⟩ v after ran
  obtain ⟨same, quiet⟩ := calm walk
  rw [ran.leaves_eq] at same
  exact ⟨cs, accounts.calm (Prod.ext_iff.mp same).2 quiet, here⟩

section

variable (body : blk ∈ survey.order)

include body

/-- An instruction is put beside another one. -/
theorem leads_beside (quiet : step.Quiet)
    (adds : ∀ {prog copy after cs front back},
      step.Yields prog copy after → prog.layout.Arranged survey.order cs →
      cs blk = front ++ k :: back →
      after.preamble = prog.preamble ∧ prog.layout.Keeps after.layout ∧ ∃ lines,
        after.layout.Arranged survey.order (update cs blk lines) ∧ lines.Perm (copy :: cs blk))
    (mem : k ∈ keys) : (onProgram step).Leads (Accounted survey blk owed aside keys) fun copy =>
      Accounted survey blk (owed + 1) aside (copy :: keys) := by
  rintro walk notes ⟨cs, accounts, here⟩ copy after ran
  obtain ⟨prog, inserts, rfl⟩ := onProgram_yields.mp ran
  obtain ⟨front, back, split⟩ := append_of_mem (here k mem)
  obtain ⟨preamble, keeps, lines, arranged, perm⟩ := adds inserts accounts.arranged split
  have accounts := accounts.rearranged body arranged keeps preamble
  refine ⟨update cs blk lines, ?_, ?_⟩
  · have one : ((lines.length : Int) - (cs blk).length) = 1 := by
      rw [perm.length_eq, length_cons]
      omega
    rw [one] at accounts
    exact accounts.calm rfl (quiet walk.program).2
  · rw [update_self]
    exact fun key isKey => perm.mem_iff.mpr
      (mem_cons.mpr ((mem_cons.mp isKey).imp_right (here key)))

theorem leads_insertBefore (mem : k ∈ keys) :
    (onProgram (insertBefore k inst)).Leads (Accounted survey blk owed aside keys)
      fun copy => Accounted survey blk (owed + 1) aside (copy :: keys) := by
  refine leads_beside body quiet_create_place (fun ran arranged split => ?_) mem
  obtain ⟨_, layout, _, placed, rfl⟩ := insertBefore_yields ran
  exact ⟨rfl, (Layout.insertBefore_inserts arranged split placed).keeps, _,
    arranged.insertBefore split placed, split ▸ perm_middle⟩

theorem leads_insertAfter (mem : k ∈ keys) :
    (onProgram (insertAfter k inst)).Leads (Accounted survey blk owed aside keys)
      fun copy => Accounted survey blk (owed + 1) aside (copy :: keys) := by
  refine leads_beside body quiet_create_place (fun ran arranged split => ?_) mem
  obtain ⟨_, layout, _, placed, rfl⟩ := insertAfter_yields ran
  refine ⟨rfl, (Layout.insertAfter_inserts arranged split placed).keeps, _,
    arranged.insertAfter split placed, ?_⟩
  rw [split]
  exact (Perm.append_left _ (Perm.swap ..)).trans perm_middle

end

theorem leads_countCopy : (count fun stats => { stats with copies := stats.copies + 1 }).Leads
    (Accounted survey blk (owed + 1) aside keys) fun _ => Accounted survey blk owed aside keys := by
  rintro walk notes ⟨cs, accounts, here⟩ v after ran
  obtain rfl := count_yields.mp ran
  have counted : Pass.Accounts survey owed aside cs
      { walk.toPass with stats := { walk.stats with copies := walk.stats.copies + 1 } } notes :=
    accounts.counted (by push_cast; omega) rfl fun _ => rfl
  exact ⟨cs, counted.calm rfl (forall_mem_nil _), here⟩

theorem leads_tryFirst {enabled : Bool} {attempt : Step Walk Bool} {note : Note}
    {counting : Stats → Stats} {otherwise : Step Walk RunFix} (tried : Calm attempt)
    (plain : note.isExpansion = false) (counts : Calm (count counting))
    (rest : Balances survey blk keys otherwise (·.known keys)) :
    Balances survey blk keys (tryFirst enabled attempt note counting otherwise) (·.known keys) := by
  unfold tryFirst
  split
  · refine leads_bind tried.leads fun result => ?_
    split
    · exact leads_bind (Calm.leads (preserves_report plain)) fun _ =>
        leads_bind counts.leads fun _ => leads_pure fun _ _ => id
    · exact rest
  · exact rest

/-- The instruction behind one of a block is in the block. -/
theorem Accounted.next (accounted : Accounted survey blk owed aside keys walk notes)
    {next : Option InstructionId} (mem : last ∈ keys)
    (isNext : walk.program.layout.nextOf last = .ok next) :
    Accounted survey blk owed aside next.toList walk notes := by
  obtain ⟨cs, accounts, here⟩ := accounted
  obtain ⟨front, back, split⟩ := append_of_mem (here last mem)
  cases (accounts.arranged.nextOf_eq split).symm.trans isNext
  refine ⟨cs, accounts, fun k isKey => ?_⟩
  rw [split]
  exact mem_append_right _ (mem_cons_of_mem _ (mem_of_mem_head? (Option.mem_toList.mp isKey)))

theorem leads_recordAllPending {copies : List PendingCopy} (mem : last ∈ keys)
    (all : ∀ copy ∈ copies, copy.instruction ∈ keys) : (recordAllPending place last copies).Leads
      (Accounted survey blk owed aside keys) fun last walk notes =>
        last ∈ keys ∧ Accounted survey blk owed aside keys walk notes := by
  induction copies generalizing last with
  | nil => exact leads_pure fun _ _ accounted => ⟨mem, accounted⟩
  | cons copy rest ih =>
    obtain ⟨here, all⟩ := forall_mem_cons.mp all
    exact leads_bind calm_recordPending.leads fun _ => ih here all

/-- Once its runs hold, an instruction leads to the one behind it and its copies. -/
theorem leads_conclude :
    Balances survey blk (k :: pending.map PendingCopy.instruction)
    (conclude setting place k pending)
      (·.toList) := by
  have behind : Balances survey blk (k :: pending.map PendingCopy.instruction)
    (recordDeferred place k
      >>= fun _ => recordAllPending place k pending >>= fun last => get >>= fun walk =>
        liftM (walk.program.layout.nextOf last)) (·.toList) := by
    refine leads_bind calm_recordDeferred.leads fun _ => leads_bind (leads_recordAllPending
      mem_cons_self fun copy mem => mem_cons_of_mem _ (mem_map_of_mem mem)) fun last => ?_
    refine leads_get_bind fun walk => ?_
    rintro _ notes ⟨rfl, mem, accounted⟩ next after ran
    obtain ⟨isNext, rfl⟩ := yields_lift.mp ran
    rw [isNext]
    exact (append_nil notes).symm ▸ accounted.next mem isNext
  refine leads_bind calm_instruction.leads fun inst =>
    leads_bind (Calm.leads (preserves_modify fun _ => rfl)) fun _ =>
    leads_bind (Calm.leads (preserves_modify fun walk => books_noteDefs _ walk)) fun _ => ?_
  split
  · exact leads_bind (Calm.leads (preserves_report rfl)) fun _ =>
      leads_bind (calm_onTracking quiet_clear).leads fun _ => behind
  · exact behind

/-! ### Copies -/

section

variable (body : blk ∈ survey.order) {pairs : List (Register × Register)}

include body

/-- A copy at the end of the preamble is counted there. -/
theorem leads_hoistCopy {holder : Register} :
    Balances survey blk keys (hoistCopy place v holder) fun _ => keys := by
  refine leads_get_bind fun walk => ?_
  split
  · next preamble isPreamble =>
    rintro _ notes ⟨rfl, cs, accounts, here⟩
    have listed : preamble ∈ survey.preamble := accounts.preamble.symm.trans isPreamble
    have pushes : (onProgram (Program.push preamble (.move holder v))).Leads
        (Accounted survey blk 0 0 keys) fun _ => Accounted survey blk 0 (0 + 1) keys := by
      rintro walk notes ⟨cs, accounts, here⟩ copy after ran
      obtain ⟨prog, pushes, rfl⟩ := onProgram_yields.mp ran
      obtain ⟨_, layout, _, placed, isProgram⟩ := Program.push_yields pushes
      have isLayout : prog.layout = layout := congrArg Program.layout isProgram
      have arranged := accounts.arranged.append placed
      have keeps := (Layout.append_inserts accounts.arranged placed).keeps
      rw [← isLayout] at arranged keeps
      have appended := accounts.appended listed arranged keeps (by rw [isProgram])
      refine ⟨update cs preamble (cs preamble ++ [copy]), appended.calm rfl
        (Program.quiet_create_place walk.program).2, fun k mem => ?_⟩
      rw [update_of_ne (by rintro rfl; exact accounts.apart _ listed body)]
      exact here k mem
    have counts : (count fun stats => { stats with hoisted := stats.hoisted + 1 }).Leads
        (Accounted survey blk 0 (0 + 1) keys) fun _ => Accounted survey blk 0 0 keys := by
      rintro walk notes ⟨cs, accounts, here⟩ v after ran
      obtain rfl := count_yields.mp ran
      have counted : Pass.Accounts survey 0 0 cs
          { walk.toPass with stats :=
            { walk.stats with hoisted := walk.stats.hoisted + 1 } } notes :=
        accounts.counted rfl (by push_cast; omega) fun none => by cases listed.symm.trans none
      exact ⟨cs, counted.calm rfl (forall_mem_nil _), here⟩
    refine leads_bind pushes (fun copy => leads_bind ?_ fun _ => leads_bind counts fun _ =>
      leads_bind ?_ fun _ => calm_remember.leads) _ notes ⟨cs, accounts, here⟩
    · exact (calm_onProgram (preserves_modify fun _ => Program.frame_exportRegister ..)).leads
    · exact Calm.leads (preserves_modify fun _ => rfl)
  · exact leads_stop

theorem leads_copyInFront (mem : k ∈ keys) :
    Balances survey blk keys (copyInFront place k pairs) fun _ => keys := by
  refine leads_lift_bind fun copy _ => leads_bind (leads_insertBefore body mem) fun made => ?_
  refine leads_bind leads_countCopy fun _ => calm_rememberAll.leads.imp fun _ _ _ accounted => ?_
  exact accounted.mono fun key => mem_cons_of_mem _

theorem leads_copyIn {batches : List Batch} (mem : k ∈ keys) :
    Balances survey blk keys (copyIn place k pairs batches) fun _ => keys := by
  induction batches with
  | nil => exact leads_pure fun _ _ => id
  | cons batch rest ih =>
    cases batch with
    | hoist i =>
      rw [copyIn]
      split
      · exact leads_bind (leads_hoistCopy body) fun _ => ih
      · exact leads_stop
    | inPlace start width => exact leads_bind (leads_copyInFront body mem) fun _ => ih

/-- The copies behind an instruction stand in its block. -/
theorem leads_copyOut {ms : List (Register × Register × Choice)} (mem : k ∈ keys) :
    Balances survey blk keys (copyOut k ms) fun copies =>
      copies.map PendingCopy.instruction ++ keys := by
  induction ms generalizing k keys with
  | nil => exact leads_pure fun _ _ => id
  | cons member rest ih =>
    obtain ⟨v, holder, choice⟩ := member
    unfold copyOut
    split
    · exact ih mem
    · refine leads_bind (leads_insertAfter body mem) fun copy => ?_
      refine leads_bind leads_countCopy fun _ => leads_bind (ih mem_cons_self) fun copies => ?_
      refine leads_pure fun _ _ accounted => accounted.mono fun key isKey => ?_
      simp only [map_cons, cons_append, mem_cons, mem_append] at isKey ⊢
      tauto

theorem leads_copyRun {plan : Plan} (mem : k ∈ keys) :
    Balances survey blk keys (copyRun place k run ops plan) (·.known keys) := by
  refine leads_bind calm_applyPlan.leads fun assigned => ?_
  cases run.side with
  | source => exact leads_bind (leads_copyIn body mem) fun _ => leads_pure fun _ _ => id
  | dest => exact leads_bind (leads_copyOut body mem) fun _ => leads_pure fun _ _ => id

/-! ### Other encodings -/

/-- A sequence takes the place of an instruction. -/
theorem leads_replace {next : Option InstructionId} :
    (onProgram (replace k sequence)).Leads (fun walk notes =>
        Accounted survey blk 0 0 [k] walk notes ∧ walk.program.layout.nextOf k = .ok next)
      fun inserted walk notes => inserted.length = sequence.length ∧ Accounted survey blk
        (0 + (sequence.length - 1)) 0 (inserted.head? <|> next).toList walk notes := by
  rintro walk notes ⟨⟨cs, accounts, here⟩, isNext⟩ inserted after ran
  obtain ⟨prog, replaces, rfl⟩ := onProgram_yields.mp ran
  obtain ⟨front, back, split⟩ := append_of_mem (here k mem_cons_self)
  cases (accounts.arranged.nextOf_eq split).symm.trans isNext
  obtain ⟨length, preamble, keeps, arranged⟩ :=
    replace_arranges accounts.arranged split replaces
  have accounts := accounts.rearranged body arranged keeps preamble
  have more : (((front ++ inserted ++ back).length : Int) - (cs blk).length) =
      sequence.length - 1 := by
    rw [split]
    simp only [length_append, length_cons, length]
    push_cast
    omega
  rw [more] at accounts
  refine ⟨length, update cs blk _, accounts.calm rfl (quiet_replace k sequence _).2, ?_⟩
  intro key mem
  rw [update_self]
  cases inserted with
  | nil => exact mem_append_right _ (mem_of_mem_head? (Option.mem_toList.mp mem))
  | cons head rest =>
    rw [Option.mem_toList] at mem
    cases mem
    exact mem_append_left _ mem_append_cons_self

theorem leads_applyRelaxation {relaxation : Relaxation}
    (isTarget : survey.target = setting.target) (mem : k ∈ keys)
    (relaxes : setting.target.relax inst run = .ok (some relaxation)) :
    Balances survey blk keys (applyRelaxation setting k run relaxation) fun fix =>
      (fix.getD .holds).known keys := by
  cases relaxation with
  | narrow narrowed =>
    rw [applyRelaxation]
    split
    · exact leads_pure fun _ _ => id
    · exact leads_bind calm_reportNarrowed.leads fun _ => leads_bind calm_setInstruction.leads
        fun _ => leads_pure fun _ _ => id
  | expand sequence =>
    rw [applyRelaxation]
    refine leads_get_bind fun walk => leads_lift_bind fun next isNext => ?_
    have noted : ∀ inserted : List InstructionId,
        (report (.expanded k inserted.length) : Step Walk Unit).Leads
        (fun walk notes => inserted.length = sequence.length ∧
          Accounted survey blk (0 + (sequence.length - 1)) 0
            (inserted.head? <|> next).toList walk notes)
        fun _ => Accounted survey blk 0 0 (inserted.head? <|> next).toList := by
      rintro inserted walk notes ⟨length, cs, accounts, here⟩ _ after ran
      obtain rfl := yields_report.mp ran
      have told := accounts.expanded (isTarget ▸ relaxes) k
      rw [Int.add_sub_cancel, ← length] at told
      exact ⟨cs, told, here⟩
    refine Leads.weaken (leads_bind (leads_replace body) fun inserted =>
      leads_bind (noted inserted) fun _ => leads_pure fun _ _ => id) ?_
    rintro _ notes ⟨rfl, accounted⟩
    exact ⟨accounted.mono fun _ same => mem_singleton.mp same ▸ mem, isNext⟩

theorem leads_tryRelax {cost : Nat} (isTarget : survey.target = setting.target) (mem : k ∈ keys) :
    Balances survey blk keys (tryRelax setting k run cost) fun fix =>
      (fix.getD .holds).known keys := by
  refine leads_bind calm_instruction.leads fun inst => leads_lift_bind fun relaxed relaxes => ?_
  cases relaxed with
  | none => exact leads_pure fun _ _ => id
  | some relaxation =>
    simp only
    split
    · exact leads_bind (Calm.leads (preserves_report rfl)) fun _ => leads_pure fun _ _ => id
    · exact leads_applyRelaxation body isTarget mem relaxes

/-! ### One run -/

variable (isTarget : survey.target = setting.target)

include isTarget

theorem leads_relaxOrCopy (mem : k ∈ keys) :
    Balances survey blk keys (relaxOrCopy setting place k run ops) (·.known keys) := by
  refine leads_bind calm_planCopies.leads fun plan => ?_
  split
  · refine leads_bind (leads_tryRelax body isTarget mem) fun relaxed => ?_
    cases relaxed with
    | some fix => exact leads_bind (calm_count fun _ => rfl).leads fun _ => leads_pure fun _ _ => id
    | none => exact leads_copyRun body mem
  · exact leads_copyRun body mem

theorem leads_handleRun (mem : k ∈ keys) :
    Balances survey blk keys (handleRun setting place k run) (·.known keys) := by
  refine leads_bind calm_instruction.leads fun inst => leads_lift_bind fun ops _ => ?_
  refine leads_get_bind fun walk => leads_lift_bind fun stats counts => ?_
  have counted : (modify fun walk => { walk with stats := stats } : Step Walk Unit).Leads
      (fun same notes => same = walk ∧ Accounted survey blk 0 0 keys walk notes) fun _ =>
        Accounted survey blk 0 0 keys := by
    rintro _ notes ⟨rfl, cs, accounts, here⟩ _ after ran
    obtain rfl := yields_modify.mp ran
    obtain rfl := Stats.eq_of_countChecked counts
    exact ⟨cs, accounts.calm rfl (forall_mem_nil _), here⟩
  refine leads_bind counted fun _ => leads_bind calm_judge.leads fun verdict => ?_
  split
  · exact leads_bind calm_commit.leads fun _ => leads_pure fun _ _ => id
  · refine leads_bind (Calm.leads (preserves_report rfl)) fun _ =>
      leads_bind (calm_count fun _ => rfl).leads fun _ => ?_
    rw [repairRun_eq]
    exact leads_tryFirst calm_tryReorder rfl (calm_count fun _ => rfl)
      (leads_tryFirst calm_tryConstants rfl (calm_count fun _ => rfl)
        (leads_relaxOrCopy body isTarget mem))

/-! ### A block -/

/-- The instructions known to be in a block once the runs of an instruction were handled. -/
def Settled.known (k : InstructionId) : Settled → List InstructionId
  | .holding pending | .narrowed pending => k :: pending.map PendingCopy.instruction
  | .replaced _ resume => resume.toList

theorem leads_handleRuns {runs : List OperandRun} :
    Balances survey blk (k :: pending.map PendingCopy.instruction)
      (handleRuns setting place k runs pending) (·.known k) := by
  induction runs generalizing pending with
  | nil => exact leads_pure fun _ _ => id
  | cons run rest ih =>
    refine leads_bind (leads_handleRun body isTarget mem_cons_self) fun fix => ?_
    cases fix with
    | holds => exact ih
    | copiedOut copies =>
      refine ih.weaken fun _ _ accounted => accounted.mono fun key mem => ?_
      simp only [RunFix.known, map_append, mem_cons, mem_append] at mem ⊢
      tauto
    | narrowed | replaced resume => exact leads_pure fun _ _ => id

theorem leads_settle {headroom : Nat} :
    Balances survey blk (k :: pending.map PendingCopy.instruction)
      (settle setting place k headroom pending) (·.known k) := by
  induction headroom generalizing pending with
  | zero => exact leads_stop
  | succ headroom ih =>
    refine leads_bind calm_instruction.leads fun inst =>
      leads_bind (leads_handleRuns body isTarget) fun settled => ?_
    cases settled with
    | narrowed => exact ih
    | holding | replaced => exact leads_pure fun _ _ => id

theorem leads_visit : Balances survey blk [k] (visit setting place k) (·.toList) := by
  refine leads_get_bind fun walk => ?_
  refine Leads.weaken (leads_bind (leads_settle body isTarget) fun settled => ?_)
    fun _ _ before => before.1 ▸ before.2
  cases settled with
  | holding pending | narrowed pending => exact leads_conclude
  | replaced pending resume =>
    exact leads_bind (Calm.leads (preserves_report rfl)) fun _ =>
      leads_bind (Calm.leads (preserves_modify fun _ => rfl)) fun _ => leads_pure fun _ _ => id

theorem leads_visitFrom {remaining : Nat} {next : Option InstructionId} :
    Balances survey blk next.toList (visitFrom setting remaining next) fun _ => [] := by
  induction remaining generalizing next with
  | zero =>
    cases next with
    | none => exact leads_pure fun _ _ => id
    | some k => exact leads_bind (leads_visit body isTarget) fun _ => leads_stop
  | succ remaining ih =>
    cases next with
    | none => exact leads_pure fun _ _ => id
    | some k => exact leads_bind (leads_visit body isTarget) fun _ => ih

end

end Walk

/-! ### The whole body -/

namespace Pass

variable {setting : Setting}

/-- The counts account for all instructions. -/
def Accounted (survey : Survey) (pass : Pass) (notes : List Note) : Prop :=
  ∃ cs, pass.Accounts survey 0 0 cs notes

theorem leads_checkGraph : checkGraph.Leads (Accounted survey) fun _ => Accounted survey := by
  refine leads_get_bind fun pass => ?_
  split
  · exact leads_stop
  · exact leads_pure fun _ _ both => both.1 ▸ both.2

theorem leads_resolveBlock (body : blk ∈ survey.order) (isTarget : survey.target = setting.target) :
    (resolveBlock setting blk).Leads (Accounted survey) fun _ => Accounted survey := by
  refine leads_get_bind fun pass => leads_lift_bind fun first isFirst => ?_
  refine leads_lift_bind fun name _ => ?_
  have steps : (Walk.visitFrom setting 0xffffffff first >>= fun _ =>
      Walk.onTracking finish).Leads (Walk.Accounted survey blk 0 0 first.toList)
        fun _ => Walk.Accounted survey blk 0 0 [] :=
    leads_bind (Walk.leads_visitFrom body isTarget) fun _ =>
      (Walk.calm_onTracking quiet_finish).leads
  rintro pass notes ⟨rfl, cs, accounts⟩ v after ⟨ended, rfl⟩
  obtain ⟨_, rfl⟩ := accounts.arranged.firstOf_eq.mp isFirst
  have begun : (⟨pass, .empty blk, []⟩ : Walk).Accounted survey blk 0 0 (cs blk).head?.toList
      (notes ++ [.blockBegun name]) :=
    ⟨cs, accounts.calm rfl (forall_mem_singleton.mpr rfl),
      fun k mem => mem_of_mem_head? (Option.mem_toList.mp mem)⟩
  obtain ⟨cs', accounts', _⟩ := steps _ _ begun v _ ⟨ended, rfl⟩
  rw [append_assoc] at accounts'
  exact ⟨cs', accounts'⟩

theorem leads_resolveBlocks (body : ∀ blk ∈ blocks, blk ∈ survey.order)
    (isTarget : survey.target = setting.target) :
    (resolveBlocks setting blocks).Leads (Accounted survey) fun _ => Accounted survey := by
  induction blocks with
  | nil => exact leads_pure fun _ _ => id
  | cons blk rest ih =>
    obtain ⟨here, body⟩ := forall_mem_cons.mp body
    exact leads_bind (leads_resolveBlock here isTarget) fun _ => ih body

end Pass

/-! ### Descriptors -/

namespace Seeding

variable {pass : Pass} {notes : List Note} {desc : Descriptor} {r fresh : Register}
  {prev : Option Register} {bnd : BindingId}

theorem quiet_follow {id : InstructionId} {place : UInt32} : (follow id inst place).Quiet := by
  refine preserves_bind (preserves_modify fun _ => rfl) fun _ =>
    preserves_bind (preserves_modify fun _ => rfl) fun _ => ?_
  split
  · exact preserves_bind (quiet_recordCopy _ _ _ _ _) fun _ => preserves_pure
  · exact preserves_pure

theorem quiet_spareCopy : (spareCopy prog blk v).Quiet := by
  have follows : ∀ lines, (followAll prog lines).Quiet := by
    intro lines
    induction lines with
    | nil => exact preserves_pure
    | cons line rest ih =>
      exact preserves_bind preserves_lift fun _ => preserves_bind quiet_follow fun _ => ih
  refine preserves_bind preserves_lift fun _ => preserves_bind (follows _) fun _ =>
    preserves_bind preserves_get fun _ => preserves_bind preserves_lift fun holders =>
    preserves_bind ?_ fun _ => preserves_bind quiet_finish fun _ => preserves_pure
  induction holders.map CopyRecord.dest with
  | nil => exact preserves_pure
  | cons holder rest ih =>
    refine preserves_bind preserves_lift fun found => ?_
    cases found with
    | true => exact preserves_pure
    | false => exact ih

theorem quiet_pinMember {pin : Pin} : (pinMember desc r pin prev).Quiet := by
  rw [pinMember_eq]
  refine preserves_bind (quiet_create r) fun id =>
    preserves_bind (preserves_modify fun _ => rfl) fun _ =>
    preserves_bind (quiet_demandParity _ _ _) fun numbered =>
    preserves_bind (quiet_demandParity _ _ _) fun aligned =>
    preserves_unless_contradict ?_
  cases prev with
  | none => exact preserves_report rfl
  | some first =>
    exact preserves_bind (quiet_apply fun g => quiet_link g _ _ _ _)
      fun linked => preserves_unless_contradict (preserves_report rfl)

/-- While descriptors are seeded, no run is looked at, and the counts account for all instructions
but those that are owed. -/
def Accounted (survey : Survey) (owed : Int) (pass : Pass) (notes : List Note) : Prop :=
  pass.stats.checked = 0 ∧ ∃ cs, pass.Accounts survey owed 0 cs notes

/-- A step that starts with nothing owed ends so. -/
abbrev Balances {α : Type} (survey : Survey) (step : Step Pass α) : Prop :=
  step.Leads (Accounted survey 0) fun _ => Accounted survey 0

/-- Nothing is added or counted. -/
def Calm {α : Type} (step : Step Pass α) : Prop := step.Preserves
  (fun pass => (pass.stats.checked, pass.books)) Note.isExpansion

theorem Calm.leads {step : Step Pass α} (calm : Calm step) :
    step.Leads (Accounted survey owed) fun _ => Accounted survey owed := by
  rintro pass notes ⟨unlooked, cs, accounts⟩ v after ran
  obtain ⟨same, quiet⟩ := calm pass
  rw [ran.leaves_eq, Prod.mk.injEq] at same
  exact ⟨same.1.trans unlooked, cs, accounts.calm same.2 quiet⟩

theorem calm_onProgram {step : Step Program α} (stays : step.Preserves frame Note.isExpansion) :
    Calm (Pass.onProgram step) :=
  fun pass => ⟨congrArg (fun frame => (pass.stats.checked, frame, pass.stats.copies,
    pass.stats.hoisted, pass.stats.seedCopies)) (stays pass.program).1, (stays pass.program).2⟩

theorem calm_onGraph {step : Step ChainGraph α} (quiet : step.Quiet) :
    Calm (Pass.onGraph step) := fun pass => ⟨rfl, (quiet pass.graph).2⟩

theorem calm_withCache {step : Step Tracking α} (quiet : step.Quiet) :
    Calm (Pass.withCache blk step) := fun _ => ⟨rfl, (quiet _).2⟩

theorem leads_countSeed :
    (Pass.count fun stats => { stats with seedCopies := stats.seedCopies + 1 }).Leads
      (Accounted survey (owed + 1)) fun _ => Accounted survey owed := by
  rintro pass notes ⟨unlooked, cs, accounts⟩ v after ran
  obtain rfl := yields_modify.mp ran
  have counted : Pass.Accounts survey owed 0 cs { pass with
      stats := { pass.stats with seedCopies := pass.stats.seedCopies + 1 } } notes :=
    accounts.counted (by push_cast; omega) rfl fun _ => rfl
  exact ⟨unlooked, cs, counted.calm rfl (forall_mem_nil _)⟩

/-- An instruction at one end of a block of the body. -/
theorem leads_atEnd (quiet : step.Quiet) (body : blk ∈ survey.order)
    (adds : ∀ {prog copy after cs},
      step.Yields prog copy after → prog.layout.Arranged survey.order cs →
        after.preamble = prog.preamble ∧ prog.layout.Keeps after.layout ∧ ∃ lines,
          after.layout.Arranged survey.order (update cs blk lines) ∧
          lines.length = (cs blk).length + 1) :
    (Pass.onProgram step).Leads (Accounted survey owed) fun _ => Accounted survey (owed + 1) := by
  rintro pass notes ⟨unlooked, cs, accounts⟩ copy after ran
  obtain ⟨prog, places, rfl⟩ := Pass.onProgram_yields.mp ran
  obtain ⟨preamble, keeps, lines, arranged, length⟩ := adds places accounts.arranged
  have accounts := accounts.rearranged body arranged keeps preamble
  have one : ((lines.length : Int) - (cs blk).length) = 1 := by omega
  rw [one] at accounts
  exact ⟨unlooked, _, accounts.calm rfl (quiet pass.program).2⟩

theorem leads_separateOutput {exit : BlockId} (body : exit ∈ survey.order) :
    Balances survey (separateOutput exit r fresh) := by
  refine leads_bind (leads_atEnd quiet_create_place body fun ran arranged => ?_) fun _ =>
    leads_countSeed
  obtain ⟨_, layout, _, placed, rfl⟩ := push_yields ran
  exact ⟨rfl, (Layout.append_inserts arranged placed).keeps, _, arranged.append placed,
    length_append⟩

theorem leads_separateArray : Balances survey (separateArray r fresh) := by
  refine leads_get_bind fun pass => ?_
  split
  · next entry isEntry =>
    rintro pass notes ⟨rfl, unlooked, cs, accounts⟩
    have body : entry ∈ survey.order :=
      mem_of_mem_head? (accounts.arranged.entry.symm.trans isEntry)
    refine leads_bind (leads_atEnd quiet_create_place body fun ran arranged => ?_)
      (fun copy => leads_bind (calm_onProgram (preserves_renameAfter copy r fresh)).leads
        fun _ => leads_countSeed) _ notes ⟨unlooked, cs, accounts⟩
    obtain ⟨_, layout, _, placed, rfl⟩ := prepend_yields ran
    exact ⟨rfl, (Layout.prepend_inserts arranged placed).keeps, _, arranged.prepend placed, rfl⟩
  · exact leads_stop

theorem leads_separateFresh {ownerKind : DescriptorKind} :
    Balances survey (separateFresh desc r ownerKind) := by
  refine leads_bind (calm_onProgram (preserves_allocate 1)).leads fun numbers => ?_
  have ended : ∀ chosen : Register, Balances survey
      (Step.report (.separated r ownerKind chosen desc.kind) >>= fun _ => pure chosen) :=
    fun _ => leads_bind (Calm.leads (preserves_report rfl)) fun _ => leads_pure fun _ _ => id
  simp only
  split
  · refine leads_get_bind fun pass => ?_
    split
    · next exit isExit =>
      rintro pass notes ⟨rfl, unlooked, cs, accounts⟩
      have body : exit ∈ survey.order :=
        mem_of_mem_getLast? (accounts.arranged.exit.symm.trans isExit)
      exact leads_bind (leads_separateOutput body) (fun _ => ended _) _ notes
        ⟨unlooked, cs, accounts⟩
    · exact leads_bind leads_stop fun _ => ended _
  · exact leads_bind leads_separateArray fun _ => ended _
  · exact ended _

theorem leads_separate {owner : Pin} : Balances survey (separate desc r owner) := by
  refine leads_bind (Calm.leads preserves_get) fun pass => leads_lift_bind fun owning _ => ?_
  refine leads_unless_contradict ?_
  change (if desc.kind = .output then _ else separateFresh desc r owning.kind).Leads _ _
  split
  · refine leads_bind (Calm.leads preserves_get) fun pass => ?_
    simp only
    split
    · refine leads_bind (calm_withCache quiet_spareCopy).leads fun spare => ?_
      cases spare with
      | some holder =>
        exact leads_bind (Calm.leads (preserves_report rfl)) fun _ => leads_pure fun _ _ => id
      | none => exact leads_separateFresh
    · exact leads_bind leads_stop fun _ => leads_separateFresh
  · exact leads_separateFresh

theorem leads_seedMember {offset : Nat} : Balances survey (seedMember bnd desc r offset prev) := by
  refine leads_unless_contradict (leads_lift_bind fun _ _ => ?_)
  refine leads_bind (Calm.leads preserves_get) fun pass => ?_
  simp only
  split
  · split
    · exact leads_pure fun _ _ => id
    · refine leads_bind leads_separate fun one => ?_
      refine leads_bind (Calm.leads (calm_onProgram (preserves_modify fun _ => ?_))) fun _ => ?_
      · rfl
      exact leads_bind (calm_onGraph quiet_pinMember).leads fun _ => leads_pure fun _ _ => id
  · exact leads_bind (calm_onGraph quiet_pinMember).leads fun _ => leads_pure fun _ _ => id

/-- Every copy that is made for a descriptor is counted. -/
theorem balances_seedAll : Balances survey seedAll :=
  leads_seedAll fun _ _ _ _ _ => leads_seedMember

/-- Nothing is counted yet at the start. -/
theorem accounted_start {target : Target} (arranged : prog.layout.Arranged order cs)
    (aside : ∀ preamble ∈ prog.preamble,
      preamble ∉ order ∧ ∃ ends, prog.layout.blocks.get? preamble = some ends) :
    Accounted ⟨target, order, cs, prog.preamble⟩ 0 (.start target prog) [] :=
  ⟨rfl, cs, arranged, rfl, fun blk mem => (aside blk mem).1,
    fun blk mem => (aside blk mem).2, by simp [Pass.start, Stats.zero, growth],
    fun _ _ => by simp [Pass.start, Stats.zero], fun _ => rfl, nofun⟩

end Seeding

/-! ### Whole programs -/

theorem Pass.leads_resolve {setting : Setting} (isTarget : survey.target = setting.target) :
    (Pass.resolve setting).Leads (Seeding.Accounted survey 0) fun resolution pass notes =>
      resolution.stats = pass.stats ∧ pass.Accounted survey notes := by
  refine leads_bind Seeding.balances_seedAll fun _ => leads_get_bind fun seeded => ?_
  refine leads_of_pre fun pass notes before => ?_
  obtain ⟨rfl, _, _, accounts⟩ := before
  have body : ∀ blk ∈ pass.program.blocks, blk ∈ survey.order := by
    rw [blocks, accounts.arranged.blockList_eq]
    exact fun _ => id
  refine Leads.weaken (leads_bind (leads_resolveBlocks body isTarget) fun _ =>
    leads_bind leads_checkGraph fun _ => leads_get_bind fun walked => ?_)
    fun _ _ before => before.1 ▸ before.2.2
  rintro walked notes ⟨rfl, cs, accounts⟩ resolution _ ⟨ended, rfl⟩
  cases ended
  exact ⟨rfl, cs, accounts.calm rfl (forall_mem_singleton.mpr rfl)⟩

namespace Program

variable {prog : Program}

/-- The links of a program describe the lists of its blocks, and the preamble is not part of the
body. -/
def LaidOut (prog : Program) : Prop :=
  ∃ order cs, prog.layout.Arranged order cs ∧ ∀ preamble ∈ prog.preamble,
    preamble ∉ order ∧ ∃ ends, prog.layout.blocks.get? preamble = some ends

theorem Built.laidOut {allowed : Instruction → Prop} (built : Built allowed prog) :
    prog.LaidOut := by
  obtain ⟨order, code, shown, _⟩ := built.shows
  exact ⟨order, _, shown.arranged, shown.aside⟩

/-- How many instructions some blocks have. -/
def size (prog : Program) (blocks : List BlockId) : Except Breach Nat := do
  return (← blocks.mapM prog.layout.instructionsOf).flatten.length

section

variable (arranged : prog.layout.Arranged order cs)

include arranged

theorem size_eq (known : ∀ blk ∈ blocks, ∃ ends, prog.layout.blocks.get? blk = some ends) :
    prog.size blocks = .ok (blocks.flatMap cs).length := by
  have listed : blocks.mapM prog.layout.instructionsOf = .ok (blocks.map cs) := by
    rw [except_mapM_eq_ok, forall₂_map_right_iff, forall₂_same]
    exact fun blk mem => arranged.instructionsOf_eq.mpr ⟨known blk mem, rfl⟩
  unfold size
  rw [listed]
  rfl

theorem size_body : prog.size prog.blocks = .ok (order.flatMap cs).length := by
  rw [blocks, arranged.blockList_eq]
  exact size_eq arranged fun blk => arranged.mem_order

theorem size_preamble (known : ∃ ends, prog.layout.blocks.get? blk = some ends) :
    prog.size [blk] = .ok (cs blk).length := by
  rw [size_eq arranged (forall_mem_singleton.mpr known), flatMap_singleton]

end

/-- The counts account for every instruction that is added: in the body these are the copies for
descriptors, the copies in place, and what expansions add; in the preamble they are the hoisted
copies. -/
theorem resolve_accounts (setting : Setting) (laid : prog.LaidOut) {resolution : Resolution}
    (ended : ((resolve setting).run prog).result = .ok resolution) :
    let outcome := (resolve setting).run prog
    outcome.state.preamble = prog.preamble ∧
    (∃ before after, prog.size prog.blocks = .ok before ∧
      outcome.state.size outcome.state.blocks = .ok after ∧
      (after : Int) = before + resolution.stats.seedCopies + resolution.stats.copies +
        growth outcome.notes) ∧
    (∀ preamble ∈ prog.preamble, ∃ before after, prog.size [preamble] = .ok before ∧
      outcome.state.size [preamble] = .ok after ∧ after = before + resolution.stats.hoisted) ∧
    (prog.preamble = none → resolution.stats.hoisted = 0) ∧
    ∀ key count, .expanded key count ∈ outcome.notes → ∃ inst run sequence,
      setting.target.relax inst run = .ok (some (.expand sequence)) ∧
        sequence.length = count := by
  obtain ⟨order, cs, arranged, aside⟩ := laid
  obtain ⟨same, cs', accounts⟩ := Pass.leads_resolve rfl _ _
    (Seeding.accounted_start arranged aside) resolution _ ⟨ended, rfl⟩
  refine ⟨accounts.preamble, ⟨_, _, size_body arranged, size_body accounts.arranged, ?_⟩,
    fun preamble isPreamble => ⟨_, _, size_preamble arranged (aside preamble isPreamble).2,
      size_preamble accounts.arranged (accounts.known preamble isPreamble), ?_⟩,
    fun none => same ▸ accounts.bare none, accounts.explained⟩
  · rw [same]
    exact accounts.body.trans (Int.add_zero _)
  · rw [same]
    exact Int.ofNat_inj.mp ((accounts.hoisted preamble isPreamble).trans (Int.add_zero _))

/-- A contested output, a wide move that is split, and two repeated operands, one of them
uniform. -/
def ledger : Program := Blueprint.assemble
  { blocks := [("entry", [
      { opcode := .vmov, dests := [.temp 0, .temp 0], sources := [.temp 1, .temp 1] },
      { opcode := .smp, dests := [.temp 2], sources := [.temp 1, .temp 1] },
      { opcode := .smp, dests := [.temp 3], sources := [.temp 4, .temp 4] }])]
    preamble := some []
    descriptors := [.input .primary none [.temp 5], .output .output none [.temp 5]]
    uniforms := [.temp 4] } |>.leaves (.empty "main")

theorem resolve_accounts_ledger : ledger.LaidOut ∧ ∃ resolution after,
    ((resolve standardSetting).run ledger).result = .ok resolution ∧
      (((resolve standardSetting).run ledger).state.size
        ((resolve standardSetting).run ledger).state.blocks) = .ok after ∧
      (after : Int) = 3 + resolution.stats.seedCopies + resolution.stats.copies + 1 := by
  have laid : ledger.LaidOut :=
    (Blueprint.built_leaves rfl : ledger.Built fun _ => True).laidOut
  have isOk : ((resolve standardSetting).run ledger).result.isOk = true := by decide +kernel
  cases ended : ((resolve standardSetting).run ledger).result with
  | error failure =>
    rw [ended] at isOk
    cases isOk
  | ok resolution =>
    obtain ⟨_, ⟨before, after, small, large, counted⟩, _⟩ :=
      resolve_accounts standardSetting laid ended
    have three : ledger.size ledger.blocks = .ok 3 := by decide +kernel
    have one : growth ((resolve standardSetting).run ledger).notes = 1 := by decide +kernel
    cases three.symm.trans small
    exact ⟨laid, resolution, after, rfl, large, one ▸ counted⟩

end Program

end RegisterChains

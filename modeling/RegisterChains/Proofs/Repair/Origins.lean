/-
This file follows the registers and the lines of a program through a walk. The registers that the
walk takes are its own: none of them has been in use before. So an operand that the walk has
changed can be told apart from one that it has left alone, a register that is filled in the
preamble is written nowhere else, and whoever reads it read, before the walk, the register that it
is a copy of.
-/

import RegisterChains.Proofs.Repair.Mending

namespace RegisterChains

open List OperandRun

/-- What a walk starts from: a program and its lines, which name registers in use. -/
structure Origin where
  program : Program
  order : List BlockId
  code : BlockId → List Line
  shown : program.Shows order code
  noted : ∀ block, ∀ line ∈ code block, ∀ op ∈ line.2.dests ++ line.2.sources, program.Noted op

namespace Origin

variable {origin : Origin} {prog after : Program} {blk : BlockId} {line : Line}
  {copies hoists : List (Register × Register)}

/-- The register was in use before the walk. -/
def Own (origin : Origin) (r : Register) : Prop := origin.program.Noted r

/-- A block of the origin writes a register. -/
def Writes (origin : Origin) (blk : BlockId) (r : Register) : Prop :=
  ∃ line ∈ origin.code blk, r ∈ line.2.dests

theorem Writes.own {r : Register} (writes : origin.Writes blk r) : origin.Own r := by
  obtain ⟨line, mem, inside⟩ := writes
  exact origin.noted blk line mem r (mem_append_left _ inside)

/-! ### Copies in the preamble -/

/-- The copies that a walk has made in the preamble: values that are uniform, each in a register
of its own. -/
structure Hoists (origin : Origin) (prog : Program) (copies : List (Register × Register)) :
    Prop where
  values : ∀ pair ∈ copies, origin.Own pair.1 ∧ origin.program.isUniform pair.1 = true ∧
    origin.program.preamble.isSome = true
  holders : ∀ pair ∈ copies, ¬ origin.Own pair.2 ∧ prog.Noted pair.2
  single : ∀ pair ∈ copies, ∀ other ∈ copies, pair.2 = other.2 → pair = other

theorem hoists_nil (origin : Origin) (prog : Program) : origin.Hoists prog [] :=
  ⟨forall_mem_nil _, forall_mem_nil _, forall_mem_nil _⟩

/-- The registers of some pairs are new, and different from each other. -/
theorem Hoists.append (hoisted : origin.Hoists prog copies) (grown : prog.nextTemp ≤ after.nextTemp)
    (values : ∀ pair ∈ hoists, origin.Own pair.1 ∧ origin.program.isUniform pair.1 = true ∧
      origin.program.preamble.isSome = true)
    (holders : ∀ pair ∈ hoists, ¬ origin.Own pair.2 ∧ after.Noted pair.2)
    (fresh : ∀ pair ∈ hoists, ¬ prog.Noted pair.2)
    (single : ∀ pair ∈ hoists, ∀ other ∈ hoists, pair.2 = other.2 → pair = other) :
    origin.Hoists after (copies ++ hoists) := by
  refine ⟨fun pair mem => ?_, fun pair mem => ?_, fun pair mem other mem' same => ?_⟩
  · rcases mem_append.mp mem with old | new
    · exact hoisted.values pair old
    · exact values pair new
  · rcases mem_append.mp mem with old | new
    · exact ⟨(hoisted.holders pair old).1, (hoisted.holders pair old).2.mono grown⟩
    · exact holders pair new
  · rcases mem_append.mp mem with old | new
    · rcases mem_append.mp mem' with old' | new'
      · exact hoisted.single pair old other old' same
      · exact absurd (same ▸ (hoisted.holders pair old).2) (fresh other new')
    · rcases mem_append.mp mem' with old' | new'
      · exact absurd (same ▸ (hoisted.holders other old').2) (fresh pair new)
      · exact single pair new other new' same

/-! ### Lines -/

/-- Where the operands of a line come from. It writes no register that is filled in the preamble,
and where it reads one, the line that it comes from read the value. -/
structure Stems (origin : Origin) (prog : Program) (copies : List (Register × Register))
    (block : BlockId) (line : Line) : Prop where
  noted : ∀ op ∈ line.2.dests ++ line.2.sources, prog.Noted op
  writes : ∀ dest ∈ line.2.dests, (∀ pair ∈ copies, pair.2 ≠ dest) ∧
    (origin.Own dest → origin.Writes block dest)
  reads : ∀ (index : Nat) pair, pair ∈ copies → line.2.sources[index]? = some pair.2 →
    ∃ orig, (line.1, orig) ∈ origin.code block ∧ orig.sources[index]? = some pair.1

/-- Registers that are handed out later do not concern a line. -/
theorem Stems.grow (stems : origin.Stems prog copies blk line)
    (grown : prog.nextTemp ≤ after.nextTemp) (fresh : ∀ pair ∈ hoists, ¬ prog.Noted pair.2) :
    origin.Stems after (copies ++ hoists) blk line := by
  refine ⟨fun op inside => (stems.noted op inside).mono grown, fun dest inside =>
    ⟨fun pair mem same => ?_, (stems.writes dest inside).2⟩, fun i pair mem placed => ?_⟩
  · rcases mem_append.mp mem with old | new
    · exact (stems.writes dest inside).1 pair old same
    · exact fresh pair new (same ▸ stems.noted dest (mem_append_left _ inside))
  · rcases mem_append.mp mem with old | new
    · exact stems.reads i pair old placed
    · exact absurd (stems.noted _ (mem_append_right _ (mem_of_getElem? placed))) (fresh pair new)

theorem Stems.mono (stems : origin.Stems prog copies blk line)
    (grown : prog.nextTemp ≤ after.nextTemp) : origin.Stems after copies blk line :=
  ⟨fun op inside => (stems.noted op inside).mono grown, stems.writes, stems.reads⟩

/-- A line that reads registers of the origin. -/
theorem stems_of_own (hoisted : origin.Hoists prog copies)
    (noted : ∀ op ∈ line.2.dests ++ line.2.sources, prog.Noted op)
    (writes : ∀ dest ∈ line.2.dests, (∀ pair ∈ copies, pair.2 ≠ dest) ∧
      (origin.Own dest → origin.Writes blk dest))
    (reads : ∀ source ∈ line.2.sources, origin.Own source) :
    origin.Stems prog copies blk line := by
  refine ⟨noted, writes, fun i pair mem placed => ?_⟩
  exact absurd (reads _ (mem_of_getElem? placed)) (hoisted.holders pair mem).1

/-- The lines of the origin. -/
theorem Hoists.stems (hoisted : origin.Hoists prog copies)
    (grown : origin.program.nextTemp ≤ prog.nextTemp) (mem : line ∈ origin.code blk) :
    origin.Stems prog copies blk line := by
  have own := origin.noted blk line mem
  refine stems_of_own hoisted (fun op inside => (own op inside).mono grown)
    (fun dest inside => ⟨fun pair isPair same => ?_, fun _ => ⟨line, mem, inside⟩⟩)
    fun source inside => own source (mem_append_right _ inside)
  exact (hoisted.holders pair isPair).1 (same ▸ own dest (mem_append_left _ inside))

/-! ### Copies behind an instruction -/

/-- A copy that puts back what the origin writes, from a register that the walk has taken for
that. -/
structure Returns (origin : Origin) (prog : Program) (copies : List (Register × Register))
    (block : BlockId) (copy : PendingCopy) : Prop where
  writes : origin.Writes block copy.value
  taken : ¬ origin.Own copy.holder ∧ prog.Noted copy.holder
  apart : ∀ pair ∈ copies, pair.2 ≠ copy.holder

section

variable {copy : PendingCopy} (returns : origin.Returns prog copies blk copy)

include returns

theorem Returns.grow (grown : prog.nextTemp ≤ after.nextTemp)
    (fresh : ∀ pair ∈ hoists, ¬ prog.Noted pair.2) :
    origin.Returns after (copies ++ hoists) blk copy := by
  refine ⟨returns.writes, ⟨returns.taken.1, returns.taken.2.mono grown⟩, fun pair mem same => ?_⟩
  rcases mem_append.mp mem with old | new
  · exact returns.apart pair old same
  · exact fresh pair new (same ▸ returns.taken.2)

theorem Returns.mono (grown : prog.nextTemp ≤ after.nextTemp) :
    origin.Returns after copies blk copy :=
  ⟨returns.writes, ⟨returns.taken.1, returns.taken.2.mono grown⟩, returns.apart⟩

theorem Returns.stems (hoisted : origin.Hoists prog copies)
    (grown : origin.program.nextTemp ≤ prog.nextTemp) : origin.Stems prog copies blk copy.line := by
  have own := returns.writes.own
  refine ⟨fun op inside => ?_, fun dest inside => ?_, fun i pair mem placed => ?_⟩
  · rcases mem_cons.mp inside with rfl | inside
    · exact own.mono grown
    · rw [mem_singleton.mp inside]
      exact returns.taken.2
  · rw [mem_singleton.mp inside]
    exact ⟨fun pair mem same => (hoisted.holders pair mem).1 (same ▸ own),
      fun _ => returns.writes⟩
  · refine absurd ?_ (returns.apart pair mem)
    exact mem_singleton.mp (mem_of_getElem? placed)

end

end Origin

namespace Walk

variable {origin : Origin} {setting : Setting} {k : InstructionId}
  {run : OperandRun}
  {walk after : Walk} {blk : BlockId} {inst orig ch copy : Instruction}
  {ops assigned others : List Register}
  {copies placed hoists pairs : List (Register × Register)} {next : UInt32} {prog : Program}
  {r op other : Register} {pair : Register × Register} {made : List Instruction}

/-! ### What the walk knows -/

/-- What the walk knows of copies: they hold values of the origin, in registers that the walk has
taken, and those in the preamble are not taken twice. -/
structure Aware (origin : Origin) (copies : List (Register × Register)) (walk : Walk) : Prop where
  knows : ∀ value dest owned, walk.tracking.Knows value dest owned →
    origin.Own value ∧ ¬ origin.Own dest ∧ walk.program.Noted dest ∧
      ∀ pair ∈ copies, pair.2 = dest → pair.1 = value ∧ owned = false
  table : ∀ pair ∈ walk.hoisted.pairs, pair ∈ copies

theorem mem_collect {besides : Register} {regs : List Register}
    (mem : r ∈ collect besides regs others) : r ∈ regs ∨ r ∈ others := by
  unfold collect at mem
  induction others generalizing regs with
  | nil => exact .inl mem
  | cons one rest ih =>
    rw [foldl_cons] at mem
    rcases ih mem with early | later
    · split at early
      · exact .inl early
      · rcases mem_append.mp early with old | new
        · exact .inl old
        · rw [mem_singleton.mp new]
          exact .inr mem_cons_self
    · exact .inr (mem_cons_of_mem _ later)

/-- What holds the same value as a register: the value that the register is a copy of, and other
copies of it. -/
theorem of_equivalents (sound : walk.tracking.Sound) (same : walk.equivalents op = .ok others)
    (mem : other ∈ others) :
    ∃ v, (v = op ∨ ∃ owned, walk.tracking.Knows v op owned) ∧
      ((other = v ∧ v ≠ op ∧ v.isVirtual = true) ∨
        (∃ owned, walk.tracking.Knows v other owned) ∨ walk.hoisted.get? v = some other) := by
  unfold equivalents at same
  obtain ⟨records, holders, rest⟩ := except_bind_eq_ok.mp same
  rw [except_pure_eq_ok] at rest
  rw [← rest] at mem
  refine ⟨(walk.tracking.valueOf op).getD op, ?_, ?_⟩
  · cases known : walk.tracking.valueOf op with
    | none => exact .inl rfl
    | some v =>
      obtain ⟨id, record, found, isDest, isValue⟩ := sound.valueOf_eq_some known
      exact .inr ⟨_, id, record, found, isValue, isDest, rfl⟩
  · rcases mem_collect (mem_of_mem_take mem) with source | listed
    · split at source
      · next isOther =>
        rw [Bool.and_eq_true, decide_eq_true_eq] at isOther
        exact .inl ⟨mem_singleton.mp source, isOther⟩
      · cases source
    · rcases mem_append.mp listed with known | hoisted
      · obtain ⟨record, inside, rfl⟩ := mem_map.mp known
        obtain ⟨id, found, isValue⟩ := sound.of_holders holders inside
        exact .inr (.inl ⟨_, id, record, found, isValue, rfl, rfl⟩)
      · exact .inr (.inr (Option.mem_toList.mp hoisted))

/-- What holds the value of a register of the origin is a known copy of it. -/
theorem Aware.of_equivalents (aware : Aware origin copies walk) (sound : walk.tracking.Sound)
    (own : origin.Own op) (same : walk.equivalents op = .ok others) (mem : other ∈ others) :
    (∃ owned, walk.tracking.Knows op other owned) ∨ (op, other) ∈ copies := by
  obtain ⟨v, rfl | ⟨_, known⟩, holds⟩ := Walk.of_equivalents sound same mem
  · rcases holds with ⟨_, no, _⟩ | known | hoisted
    · exact absurd rfl no
    · exact .inl known
    · exact .inr (aware.table _ (Assoc.mem_of_get? hoisted))
  · exact absurd own (aware.knows _ _ _ known).2.1

theorem Handed.not_noted (handed : walk.Handed next r) : ¬ walk.program.Noted r := by
  obtain ⟨number, rfl, lo, _⟩ := handed
  exact fun noted => absurd (noted rfl) (UInt32.not_lt.mpr lo)

theorem Handed.noted (handed : walk.Handed next r) (grown : next ≤ prog.nextTemp) :
    prog.Noted r := by
  obtain ⟨number, rfl, _, hi⟩ := handed
  exact fun _ => UInt32.lt_of_lt_of_le hi grown

/-- A register that nobody needs belongs to the walk. -/
theorem Aware.of_vacant (aware : Aware origin copies walk)
    (hoisted : origin.Hoists walk.program copies) (kept : origin.program.Keeps walk.program)
    (grown : next ≤ prog.nextTemp) (keeps : walk.program.Keeps prog)
    (vacant : walk.Vacant inst next r) :
    ¬ origin.Own r ∧ prog.Noted r ∧ ∀ pair ∈ copies, pair.2 ≠ r := by
  rcases vacant with handed | ⟨⟨v, known⟩, _⟩
  · refine ⟨fun own => handed.not_noted (own.mono kept.nextTemp), handed.noted grown,
      fun pair mem same => handed.not_noted (same ▸ (hoisted.holders pair mem).2)⟩
  · obtain ⟨_, taken, noted, apart⟩ := aware.knows _ _ _ known
    refine ⟨taken, noted.mono keeps.nextTemp, fun pair mem same => ?_⟩
    cases (apart pair mem same).2

/-! ### What a repair takes -/

/-- A walk over code that stems from an origin, with these copies in the preamble. -/
structure Grounded (origin : Origin) (copies : List (Register × Register)) (walk : Walk) :
    Prop where
  sound : walk.tracking.Sound
  keeps : origin.program.Keeps walk.program
  hoisted : origin.Hoists walk.program copies
  aware : Aware origin copies walk

/-- A repair copies values of the origin into registers that nobody needs, in place or in the
preamble. -/
structure Takes (origin : Origin) (walk : Walk) (inst : Instruction) (next : UInt32)
    (placed hoists : List (Register × Register)) : Prop where
  vacant : ∀ pair ∈ placed, origin.Own pair.1 ∧ walk.Vacant inst next pair.2
  handed : ∀ pair ∈ hoists, origin.Own pair.1 ∧ walk.program.isUniform pair.1 = true ∧
    walk.program.preamble.isSome = true ∧ walk.Handed next pair.2
  once : ∀ pair ∈ placed, ∀ other ∈ placed, pair.2 = other.2 → pair = other
  single : ∀ pair ∈ hoists, ∀ other ∈ hoists, pair.2 = other.2 → pair = other
  apart : ∀ pair ∈ placed, ∀ other ∈ hoists, pair.2 ≠ other.2

theorem takes_nil (origin : Origin) (walk : Walk) (inst : Instruction) (next : UInt32) :
    Takes origin walk inst next [] [] := by
  constructor <;> exact forall_mem_nil _

theorem Supplies.takes (supplies : Supplies walk run inst next ops assigned placed hoists)
    (own : ∀ op ∈ ops, origin.Own op) : Takes origin walk inst next placed hoists := by
  have ownPair : ∀ pair ∈ ops.zip assigned, origin.Own pair.1 :=
    fun pair inside => own pair.1 (of_mem_zip inside).1
  refine ⟨fun pair mem => ?_, fun pair mem => ?_, fun pair mem one mem' => ?_,
    fun pair mem one mem' => ?_, supplies.apart⟩
  · obtain ⟨inside, vacant⟩ := supplies.vacant pair mem
    exact ⟨ownPair pair inside, vacant⟩
  · obtain ⟨inside, handed, uniform, preamble⟩ := supplies.handed pair mem
    exact ⟨ownPair pair inside, uniform, preamble, handed⟩
  · exact supplies.eq_of_snd (supplies.vacant pair mem).1 (supplies.vacant one mem').1
  · exact supplies.eq_of_snd (supplies.handed pair mem).1 (supplies.handed one mem').1

theorem Mends.takes {post : List PendingCopy}
    (mends : Mends setting walk run inst ops next placed hoists made ch post)
    (own : ∀ op ∈ ops, origin.Own op) : Takes origin walk inst next placed hoists := by
  cases mends with
  | fits | reordered _ | substituted _ | copiedOut _ _ _ => exact takes_nil ..
  | copiedIn _ _ _ supplies => exact supplies.takes own

theorem Takes.fresh (takes : Takes origin walk inst next placed hoists) :
    ∀ pair ∈ hoists, ¬ walk.program.Noted pair.2 :=
  fun pair mem => (takes.handed pair mem).2.2.2.not_noted

section

variable (takes : Takes origin walk inst next placed hoists)
  (grounded : Grounded origin copies walk) (grown : next ≤ prog.nextTemp)
  (keeps : walk.program.Keeps prog)

include takes grounded grown keeps

theorem Takes.appends : origin.Hoists prog (copies ++ hoists) := by
  refine grounded.hoisted.append keeps.nextTemp (fun pair mem => ?_) (fun pair mem => ?_)
    takes.fresh takes.single
  · obtain ⟨own, uniform, preamble, _⟩ := takes.handed pair mem
    unfold Program.isUniform at uniform ⊢
    rw [grounded.keeps.uniforms] at uniform
    rw [grounded.keeps.preamble] at preamble
    exact ⟨own, uniform, preamble⟩
  · obtain ⟨_, _, _, handed⟩ := takes.handed pair mem
    exact ⟨fun own => handed.not_noted (own.mono grounded.keeps.nextTemp), handed.noted grown⟩

/-- The registers that are filled in place belong to the walk, and not to the preamble. -/
theorem Takes.of_placed (mem : pair ∈ placed) :
    ¬ origin.Own pair.2 ∧ prog.Noted pair.2 ∧ ∀ one ∈ copies ++ hoists, one.2 ≠ pair.2 := by
  obtain ⟨taken, noted, apart⟩ := grounded.aware.of_vacant grounded.hoisted grounded.keeps grown
    keeps (takes.vacant pair mem).2
  refine ⟨taken, noted, fun one inside => ?_⟩
  rcases mem_append.mp inside with old | new
  · exact apart one old
  · exact (takes.apart pair mem one new).symm

end

/-- A repair leaves a walk that still stems from the origin. -/
theorem Grounded.gains (grounded : Grounded origin copies walk)
    (takes : Takes origin walk inst next placed hoists) (grown : next ≤ after.program.nextTemp)
    (extends' : walk.Extends after) (gains : walk.Gains placed hoists after) :
    Grounded origin (copies ++ hoists) after := by
  have keeps := extends'.keeps
  have hoisted := takes.appends grounded grown keeps
  refine ⟨extends'.sound, grounded.keeps.trans keeps, hoisted, fun v dest owned known => ?_,
    fun pair mem => ?_⟩
  · rcases gains.knows v dest owned known with ⟨old, _⟩ | ⟨_, new⟩ | ⟨isOwned, new⟩
    · obtain ⟨own, taken, noted, apart⟩ := grounded.aware.knows v dest owned old
      refine ⟨own, taken, noted.mono keeps.nextTemp, fun pair mem same => ?_⟩
      rcases mem_append.mp mem with early | late
      · exact apart pair early same
      · exact absurd (same ▸ noted) (takes.fresh pair late)
    · obtain ⟨taken, noted, apart⟩ := takes.of_placed grounded grown keeps new
      exact ⟨(takes.vacant _ new).1, taken, noted,
        fun pair mem same => absurd same (apart pair mem)⟩
    · have inside : (v, dest) ∈ copies ++ hoists := mem_append_right _ new
      refine ⟨(takes.handed _ new).1, (hoisted.holders _ inside).1, (hoisted.holders _ inside).2,
        fun pair mem same => ?_⟩
      cases hoisted.single pair mem _ inside same
      exact ⟨rfl, isOwned⟩
  · rcases gains.hoisted pair mem with old | new
    · exact mem_append_left _ (grounded.aware.table pair old)
    · exact mem_append_right _ new

/-- Whatever stands for an operand is in use, and if it is filled in the preamble, then from that
operand. -/
theorem Supplies.of_pair (supplies : Supplies walk run inst next ops assigned placed hoists)
    (grounded : Grounded origin copies walk) (own : ∀ op ∈ ops, origin.Own op)
    (grown : next ≤ prog.nextTemp) (keeps : walk.program.Keeps prog)
    (inside : pair ∈ ops.zip assigned) :
    prog.Noted pair.2 ∧ ∀ copy ∈ copies ++ hoists, copy.2 = pair.2 → copy.1 = pair.1 := by
  have takes := supplies.takes own
  have hoisted := takes.appends grounded grown keeps
  have ownPair := own pair.1 (of_mem_zip inside).1
  have listed : pair ∈ copies ++ hoists →
      prog.Noted pair.2 ∧ ∀ copy ∈ copies ++ hoists, copy.2 = pair.2 → copy.1 = pair.1 :=
    fun mem => ⟨(hoisted.holders pair mem).2,
      fun copy isCopy same => congrArg Prod.fst (hoisted.single copy isCopy pair mem same)⟩
  rcases supplies.each pair inside with kept | ⟨_, others, same, isOther⟩ | isPlaced | isHoisted
  · rw [kept]
    exact ⟨(ownPair.mono grounded.keeps.nextTemp).mono keeps.nextTemp,
      fun copy isCopy same => absurd (same ▸ ownPair) (hoisted.holders copy isCopy).1⟩
  · rcases grounded.aware.of_equivalents grounded.sound ownPair same isOther with
      ⟨owned, known⟩ | old
    · obtain ⟨_, _, noted, apart⟩ := grounded.aware.knows _ _ _ known
      refine ⟨noted.mono keeps.nextTemp, fun copy isCopy same => ?_⟩
      rcases mem_append.mp isCopy with early | late
      · exact (apart copy early same).1
      · exact absurd (same ▸ noted) (takes.fresh copy late)
    · exact listed (mem_append_left _ old)
  · obtain ⟨_, noted, apart⟩ := takes.of_placed grounded grown keeps isPlaced
    exact ⟨noted, fun copy isCopy same => absurd same (apart copy isCopy)⟩
  · exact listed (mem_append_right _ isHoisted)

/-! ### The lines of a repair -/

theorem copyInstruction_eq_ok (isCopy : copyInstruction pairs = .ok copy) :
    copy.dests = pairs.map Prod.snd ∧ copy.sources = pairs.map Prod.fst := by
  rcases copyInstruction_cases isCopy with ⟨_, _, rfl, rfl⟩ | rfl
  · exact ⟨rfl, rfl⟩
  · exact ⟨rfl, rfl⟩

/-- The copies in place read and write registers of the pairs that are copied. -/
theorem Copied.of_made {batches : List Batch} (copied : Copied pairs batches made placed hoists)
    (mem : copy ∈ made) : (∀ dest ∈ copy.dests, ∃ pair ∈ placed, pair.2 = dest) ∧
      ∀ source ∈ copy.sources, ∃ pair ∈ placed, pair.1 = source := by
  induction copied with
  | nil => cases mem
  | hoist _ _ ih => exact ih mem
  | inPlace isCopy _ ih =>
    rcases mem_cons.mp mem with rfl | later
    · obtain ⟨dests, sources⟩ := copyInstruction_eq_ok isCopy
      rw [dests, sources]
      refine ⟨fun dest inside => ?_, fun source inside => ?_⟩
      · obtain ⟨pair, isPair, rfl⟩ := mem_map.mp inside
        exact ⟨pair, mem_append_left _ isPair, rfl⟩
      · obtain ⟨pair, isPair, rfl⟩ := mem_map.mp inside
        exact ⟨pair, mem_append_left _ isPair, rfl⟩
    · obtain ⟨dests, sources⟩ := ih later
      refine ⟨fun dest inside => ?_, fun source inside => ?_⟩
      · obtain ⟨pair, isPair, same⟩ := dests dest inside
        exact ⟨pair, mem_append_right _ isPair, same⟩
      · obtain ⟨pair, isPair, same⟩ := sources source inside
        exact ⟨pair, mem_append_right _ isPair, same⟩

/-- The copies in place stem from the origin. -/
theorem Takes.stems {line : Line} (takes : Takes origin walk inst next placed hoists)
    (grounded : Grounded origin copies walk) (grown : next ≤ prog.nextTemp)
    (keeps : walk.program.Keeps prog)
    (dests : ∀ dest ∈ line.2.dests, ∃ pair ∈ placed, pair.2 = dest)
    (sources : ∀ source ∈ line.2.sources, ∃ pair ∈ placed, pair.1 = source) :
    origin.Stems prog (copies ++ hoists) blk line := by
  have own : ∀ source ∈ line.2.sources, origin.Own source := by
    intro source inside
    obtain ⟨pair, isPair, rfl⟩ := sources source inside
    exact (takes.vacant pair isPair).1
  refine Origin.stems_of_own (takes.appends grounded grown keeps) (fun op inside => ?_)
    (fun dest inside => ?_) own
  · rcases mem_append.mp inside with isDest | isSource
    · obtain ⟨pair, isPair, rfl⟩ := dests op isDest
      exact (takes.of_placed grounded grown keeps isPair).2.1
    · exact ((own op isSource).mono grounded.keeps.nextTemp).mono keeps.nextTemp
  · obtain ⟨pair, isPair, rfl⟩ := dests dest inside
    obtain ⟨taken, _, apart⟩ := takes.of_placed grounded grown keeps isPair
    exact ⟨apart, fun own => absurd own taken⟩

/-- The sources of a run are replaced by others, which are filled in the preamble only from what
the original instruction reads in their places. -/
theorem stems_of_replace (side : run.side = .source)
    (stems : origin.Stems prog copies blk (k, inst))
    (mem : (k, orig) ∈ origin.code blk) (found : run.operands inst = .ok ops)
    (intact : run.operands orig = .ok ops) (replaced : run.replace inst assigned = .ok ch)
    (each : ∀ (i : Nat) r, assigned[i]? = some r → prog.Noted r ∧ ∀ pair ∈ copies, pair.2 = r →
        ops[i]? = some pair.1) : origin.Stems prog copies blk (k, ch) := by
  obtain ⟨pre, post, cuts⟩ := operands_eq_ok.mp found
  obtain ⟨pre', post', cuts'⟩ := operands_eq_ok.mp intact
  obtain ⟨same, rfl⟩ := cuts.replace_eq_ok.mp replaced
  have list := (list_of_source side inst).symm.trans cuts.list
  have list' := (list_of_source side orig).symm.trans cuts'.list
  rw [withList_of_source side]
  refine ⟨fun op inside => ?_, stems.writes, fun i pair isPair atPlace => ?_⟩
  · rcases mem_append.mp inside with isDest | isSource
    · exact stems.noted op (mem_append_left _ isDest)
    · rcases mem_append.mp isSource with early | late
      · rcases mem_append.mp early with outside | here
        · exact stems.noted op (mem_append_right _ (by rw [list]; simp [outside]))
        · obtain ⟨i, atPlace⟩ := getElem?_of_mem here
          exact (each i op atPlace).1
      · exact stems.noted op (mem_append_right _ (by rw [list]; simp [late]))
  · -- Outside of the run nothing changes, and inside the original instruction has its operands.
    have outside : inst.sources[i]? = some pair.2 → ∃ orig, (k, orig) ∈ origin.code blk ∧
          orig.sources[i]? = some pair.1 := stems.reads i pair isPair
    have lengths : assigned.length = ops.length := same.trans cuts.count.symm
    rcases Nat.lt_or_ge i pre.length with early | late
    · refine outside ?_
      rw [list, append_assoc, getElem?_append_left early]
      rwa [append_assoc, getElem?_append_left early] at atPlace
    · rw [append_assoc, getElem?_append_right late] at atPlace
      rcases Nat.lt_or_ge (i - pre.length) assigned.length with inside | behindRun
      · rw [getElem?_append_left inside] at atPlace
        have isOperand := (each _ _ atPlace).2 pair isPair rfl
        refine ⟨orig, mem, ?_⟩
        have late' : pre'.length ≤ i := by rw [cuts'.start, ← cuts.start]; exact late
        have offset : i - pre'.length = i - pre.length := by
          rw [cuts'.start, cuts.start]
        rw [list', append_assoc, getElem?_append_right late', offset,
          getElem?_append_left (lengths ▸ inside)]
        exact isOperand
      · refine outside ?_
        rw [getElem?_append_right behindRun, lengths] at atPlace
        rw [list, append_assoc, getElem?_append_right late,
          getElem?_append_right (lengths ▸ behindRun)]
        exact atPlace

end Walk

end RegisterChains

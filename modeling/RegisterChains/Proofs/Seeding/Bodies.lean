/-
This file says what separating a contested register does to the body of a program, and what
the changed body computes. Registers that were in use hold what they held before, with one
exception: the register that is taken from an array is no longer written, so it ends up with
what it held at the start.
-/

import RegisterChains.Proofs.Execution
import RegisterChains.Proofs.Seeding.Seeded

namespace RegisterChains

open Arithmetic Function Instruction List Step

variable {lines : List Line} {exit : BlockId}

/-- The instructions of some blocks, one block after the other. -/
def bodyOf (order : List BlockId) (code : BlockId → List Line) : List Instruction :=
  (order.flatMap code).map Prod.snd

namespace Program

variable {prog after : Program} {order : List BlockId} {code : BlockId → List Line}
  {k : InstructionId} {inst : Instruction}

/-! ### The body as one list -/

theorem Shows.body_eq (shown : prog.Shows order code) : prog.body = .ok (bodyOf order code) := by
  have listed : order.mapM prog.instructionsOf =
      .ok (order.map fun blk => (code blk).map Prod.snd) := by
    rw [except_mapM_eq_ok, forall₂_map_right_iff, forall₂_same]
    exact fun blk mem => shown.instructionsOf_body mem
  rw [← shown.blocks_eq] at listed
  refine except_bind_eq_ok.mpr ⟨_, listed, ?_⟩
  rw [except_pure_eq_ok, shown.blocks_eq, bodyOf, map_flatMap, flatMap_def]

theorem flatMap_update_of_notMem {blk : BlockId} {blocks : List BlockId} (absent : blk ∉ blocks) :
    blocks.flatMap (update code blk lines) = blocks.flatMap code := by
  refine flatMap_congr fun one mem => ?_
  rw [update_of_ne]
  rintro rfl
  exact absent mem

/-- A line at the end of the last block is at the end of the body. -/
theorem Shows.bodyOf_push (shown : prog.Shows order code) (isExit : prog.layout.exit = some exit)
    (line : Line) :
    bodyOf order (update code exit (code exit ++ [line])) = bodyOf order code ++ [line.2] := by
  obtain ⟨front, rfl⟩ := getLast?_eq_some_iff.mp (shown.arranged.exit ▸ isExit)
  have absent : exit ∉ front := fun mem =>
    (nodup_append.mp shown.arranged.orderNodup).2.2 exit mem exit (by simp) rfl
  simp [bodyOf, flatMap_update_of_notMem absent]

/-- A line at the start of the first block is at the start of the body. -/
theorem Shows.bodyOf_prepend {entry : BlockId} (shown : prog.Shows order code)
    (isEntry : prog.layout.entry = some entry) (line : Line) : ∃ rest, order = entry :: rest ∧
      order.flatMap (update code entry (line :: code entry)) = line :: order.flatMap code := by
  obtain ⟨rest, rfl⟩ : ∃ rest, order = entry :: rest :=
    head?_eq_some_iff.mp (shown.arranged.entry ▸ isEntry)
  have absent : entry ∉ rest := (nodup_cons.mp shown.arranged.orderNodup).1
  exact ⟨rest, rfl, by simp [flatMap_update_of_notMem absent]⟩

section

variable {rest : List BlockId} {lines : List Line} {entry : BlockId}
  (shown : prog.Shows order code) (starts : order = entry :: rest)
  (begins : code entry = (k, inst) :: lines)

include shown starts begins

/-- All lines of the body run after its first one. -/
theorem Shows.laterInstructions_eq :
    prog.laterInstructions k = .ok ((lines ++ rest.flatMap code).map Prod.fst) := by
  have arranged := shown.arranged
  have split : (code entry).map Prod.fst = [] ++ k :: lines.map Prod.fst := by
    rw [begins, map_cons, nil_append]
  have placed : prog.layout.blockOf k = .ok entry := by
    refine except_bind_eq_ok.mpr ⟨_, SideTable.get_eq_ok.mpr (arranged.placed entry _ k _ split),
      rfl⟩
  have followers : prog.layout.followersOf k = .ok (lines.map Prod.fst) := by
    have bound := arranged.length_contents entry
    have split' : (code entry).map Prod.fst = [k] ++ lines.map Prod.fst := split
    rw [split', length_append] at bound
    refine except_bind_eq_ok.mpr ⟨_, arranged.nextOf_eq split, ?_⟩
    rw [except_pure_eq_ok]
    exact arranged.instructionsFrom_eq split' (by omega)
  have others : (order.dropWhile (· ≠ entry)).drop 1 = rest := by simp [starts]
  have listed : ((order.dropWhile (· ≠ entry)).drop 1).mapM prog.layout.instructionsOf =
      .ok (rest.map fun blk => (code blk).map Prod.fst) := by
    rw [others, except_mapM_eq_ok, forall₂_map_right_iff, forall₂_same]
    refine fun blk mem => arranged.instructionsOf_eq.mpr ⟨arranged.mem_order ?_, rfl⟩
    rw [starts]
    exact mem_cons_of_mem _ mem
  unfold laterInstructions
  rw [shown.blocks_eq]
  refine except_bind_eq_ok.mpr ⟨_, placed, except_bind_eq_ok.mpr ⟨_, followers,
    except_bind_eq_ok.mpr ⟨_, listed, ?_⟩⟩⟩
  rw [except_pure_eq_ok, map_append, map_flatMap, flatMap_def]

/-- Renaming behind the first line of the body leaves that line alone and changes all others. -/
theorem Shows.renameAfter {r replacement : Register}
    (ran : (Program.renameAfter k r replacement).Yields prog () after) :
    ∃ code', after.Shows order code' ∧ bodyOf order code' =
      inst :: ((lines ++ rest.flatMap code).map Prod.snd).map (·.rename r replacement) := by
  obtain ⟨later, isLater, rfl⟩ := renameAfter_yields ran
  rw [shown.laterInstructions_eq starts begins, Except.ok.injEq] at isLater
  subst isLater
  refine ⟨_, shown.modifyAll (·.rename r replacement) (fun _ => Seeding.rename_rename) _, ?_⟩
  have absent : k ∉ (lines ++ rest.flatMap code).map Prod.fst := by
    have inside : k ∈ (code entry).map Prod.fst := by simp [begins]
    rw [map_append, mem_append, not_or]
    refine ⟨fun mem => ?_, fun mem => ?_⟩
    · have distinct := shown.arranged.nodup entry
      simp only [begins, map_cons] at distinct
      exact (nodup_cons.mp distinct).1 mem
    · obtain ⟨line, listed, isKey⟩ := mem_map.mp mem
      obtain ⟨blk, isBlock, mem'⟩ := mem_flatMap.mp listed
      have inside' : k ∈ (code blk).map Prod.fst := isKey ▸ mem_map_of_mem mem'
      have same := shown.arranged.block_unique inside inside'
      rw [starts] at shown
      exact (nodup_cons.mp shown.arranged.orderNodup).1 (same ▸ isBlock)
  have body : order.flatMap code = (k, inst) :: (lines ++ rest.flatMap code) := by
    rw [starts, flatMap_cons, begins, cons_append]
  unfold bodyOf
  rw [← map_flatMap, body, map_cons, map_cons, if_neg absent, map_map, map_map]
  congr 1
  refine map_congr_left fun line mem => ?_
  exact if_pos (mem_map_of_mem mem)

end

end Program

/-! ### What changed bodies compute -/

namespace Arithmetic

variable {r fresh : Register} {code : List Instruction}

/-- A fresh register that is written first and stands for another one from then on. -/
theorem run_renamed (arith : Arithmetic) (cs : Contents) (virt : r.isVirtual = true)
    (virtual' : fresh.isVirtual = true) (apart : r ≠ fresh)
    (absent : ∀ inst ∈ code, fresh ∉ inst.dests ++ inst.sources) :
    let renamed := move fresh r :: code.map (·.rename r fresh)
    arith.run renamed cs r = cs r ∧ ∀ other, other ≠ r → other ≠ fresh →
        arith.run renamed cs other = arith.run code cs other := by
  intro renamed
  refine ⟨run_of_notMem fun inst mem => ?_, fun other notRegister notFresh => ?_⟩
  · rcases mem_cons.mp mem with rfl | inside
    · simpa [move, plain] using apart
    · obtain ⟨orig, _, rfl⟩ := mem_map.mp inside
      exact fun written => Seeding.notMem_rename apart (mem_append_left _ written)
  · let swap := fun op => if op = r then fresh else op
    have mirrors : cs.Mirrors (arith.step cs (.move fresh r)) (· ≠ fresh) swap := by
      intro one named
      rw [step_move]
      by_cases same : one = r
      · rw [same, show swap r = fresh from if_pos rfl, Contents.set_self, read_of_virtual virt]
      · rw [show swap one = one from if_neg same, cs.set_of_ne _ named]
    have injective : ∀ one two, one ≠ fresh → two ≠ fresh → swap one = swap two → one = two := by
      intro one two named named' equal
      simp only [swap] at equal
      split at equal <;> split at equal
      · next isSame isOther => rw [isSame, isOther]
      · exact absurd equal.symm named'
      · exact absurd equal named
      · exact equal
    have kind : ∀ one, swap one = one ∨ one.isVirtual = true ∧ (swap one).isVirtual = true := by
      intro one
      by_cases same : one = r
      · exact .inr ⟨same ▸ virt, by rw [show swap one = fresh from if_pos same]; exact virtual'⟩
      · exact .inl (if_neg same)
    have inside : ∀ inst ∈ code, ∀ op ∈ inst.dests ++ inst.sources, op ≠ fresh := by
      rintro inst mem op named rfl
      exact absent inst mem named
    have ran := mirrors.run arith injective kind inside other notFresh
    rw [show swap other = other from if_neg notRegister] at ran
    exact ran.symm

end Arithmetic

namespace Seeding

variable {prog after : Program} {order : List BlockId} {code : BlockId → List Line}
  {r other : Register} {arith : Arithmetic} {cs : Contents} {track next : Tracking}

/-! ### Copies that are followed -/

theorem follow_truthful {id : InstructionId} {inst : Instruction} {place : UInt32}
    (sound : track.Sound) (truthful : track.Truthful arith cs)
    (ran : (follow id inst place).Yields track () next) :
    next.Truthful arith (arith.step cs inst) := by
  unfold follow at ran
  rw [yields_modify_bind, yields_modify_bind] at ran
  have sound' := (sound.noteUses inst.sources place).1.sound
  have truthful' := (truthful.noteUses sound inst.sources place).step sound' inst
  split at ran
  · next dest source isCopy =>
    obtain ⟨_, records, _⟩ := yields_bind_pure.mp ran
    by_cases same : source = dest
    · unfold Tracking.recordCopy at records
      rw [if_pos (by simp [same])] at records
      obtain ⟨_, rfl⟩ := yields_pure.mp records
      exact truthful'
    · refine truthful'.recordCopy (sound'.noteDefs inst.dests).1.sound (fun _ => ?_) records
      have written : arith.step cs inst = arith.step cs (.move dest source) := by
        unfold asCopy at isCopy
        split at isCopy
        · next opcode dests sources =>
          cases isCopy
          unfold step results
          rw [opcode, dests, sources]
          rfl
        · cases isCopy
      have notDest : source ∉ (move dest source).dests := by
        simpa [move, plain] using same
      rw [written, read_step_of_notMem notDest, step_move, Contents.set_self]
  · obtain ⟨_, rfl⟩ := yields_pure.mp ran
    exact truthful'

theorem followAll_truthful {count : Nat}
    (stored : ∀ line ∈ lines, prog.instructions.get? line.1 = some line.2) (sound : track.Sound)
    (truthful : track.Truthful arith cs)
    (ran : (followAll prog ((lines.map Prod.fst).zipIdx count)).Yields track () next) :
    next.Truthful arith (arith.run (lines.map Prod.snd) cs) := by
  induction lines generalizing track cs count with
  | nil =>
    obtain ⟨_, rfl⟩ := yields_pure.mp ran
    exact truthful
  | cons line rest ih =>
    rw [map_cons, zipIdx_cons] at ran
    obtain ⟨inst, found, ran⟩ := yields_lift_bind.mp ran
    obtain ⟨_, mid, follows, later⟩ := yields_bind.mp ran
    have isInst : inst = line.2 := by
      have here := stored line mem_cons_self
      rw [Arena.get_eq_ok.mp found] at here
      exact Option.some_inj.mp here
    subst isInst
    exact ih (fun one mem => stored one (mem_cons_of_mem _ mem))
      (follow_yields sound follows).2 (follow_truthful sound truthful follows) later

/-- A register that holds a copy at the end of the last block holds it at the end of the
body. -/
theorem Copied.holds (copied : Copied prog exit r other) (shown : prog.Shows order code)
    (isExit : prog.layout.exit = some exit) (arith : Arithmetic) (cs : Contents) :
    arith.run (bodyOf order code) cs other =
      arith.read (arith.run (bodyOf order code) cs) r := by
  obtain ⟨g, keys, track, owned, sound, listed, follows, known⟩ := copied
  obtain ⟨_, rfl⟩ := shown.arranged.instructionsOf_eq.mp listed
  obtain ⟨front, rfl⟩ := getLast?_eq_some_iff.mp (shown.arranged.exit ▸ isExit)
  have body : bodyOf (front ++ [exit]) code = bodyOf front code ++ (code exit).map Prod.snd := by
    simp [bodyOf]
  rw [body, run_append]
  exact (followAll_truthful (shown.stored exit) sound (Tracking.truthful_empty exit g)
    follows r other owned known).2

/-! ### Separated registers -/

/-- What the body computes after a contested register was separated. -/
theorem Separates.runs {claimant : DescriptorKind}
    (separates : Separates prog r claimant other after) (closed : prog.Closed)
    (noted : prog.Noted r) (virt : r.isVirtual = true) (shown : prog.Shows order code) :
    ∃ code', after.Shows order code' ∧ ∀ arith cs,
      (∀ one, prog.Noted one → (claimant = .array → one ≠ r) →
        run arith (bodyOf order code') cs one =
          run arith (bodyOf order code) cs one) ∧
      (claimant = .output → run arith (bodyOf order code') cs other =
        run arith (bodyOf order code) cs r) ∧ (claimant = .array →
        run arith (bodyOf order code') cs r = cs r) := by
  cases separates with
  | taken isExit copied _ _ =>
    refine ⟨code, shown, fun arith cs => ⟨fun _ _ _ => rfl, fun _ => ?_, by simp⟩⟩
    rw [copied.holds shown isExit, read_of_virtual virt]
  | input allocates =>
    exact ⟨code, shown.allocate allocates, fun _ _ => ⟨fun _ _ _ => rfl, by simp, by simp⟩⟩
  | output isExit allocates pushes =>
    obtain ⟨_, unused, _⟩ := Program.noted_of_allocate allocates
    have allocated := shown.allocate allocates
    refine ⟨_, allocated.push pushes, fun arith cs => ?_⟩
    rw [allocated.bodyOf_push isExit, run_append]
    refine ⟨fun one isNoted _ => ?_, fun _ => ?_, by simp⟩
    · refine step_of_notMem fun written => unused ?_
      rw [← mem_singleton.mp written]
      exact isNoted
    · refine (Contents.set_self _ _ _).trans ?_
      rw [read_of_virtual virt]
  | @array number _ _ _ _ entry k isEntry allocates prepends renames =>
    obtain ⟨_, unused, _⟩ := Program.noted_of_allocate allocates
    have allocated := shown.allocate allocates
    have prepended := allocated.prepend prepends
    have ne : r ≠ .temp number := by
      rintro rfl
      exact unused noted
    obtain ⟨rest, starts, body⟩ := allocated.bodyOf_prepend isEntry (k, .move (.temp number) r)
    obtain ⟨code', shown', body'⟩ := prepended.renameAfter starts (update_self ..) renames
    have lines : code entry ++ rest.flatMap (update code entry
        ((k, .move (.temp number) r) :: code entry)) = order.flatMap code := by
      rw [starts, flatMap_cons, update_self, cons_append] at body
      rw [starts]
      exact List.cons.inj body |>.2
    have ops : ∀ inst ∈ bodyOf order code, .temp number ∉ inst.dests ++ inst.sources := by
      intro inst mem inside
      obtain ⟨line, listed, rfl⟩ := mem_map.mp mem
      obtain ⟨blk, _, mem'⟩ := mem_flatMap.mp listed
      exact unused (closed.operands line.1 line.2 (shown.stored blk line mem') _ inside)
    refine ⟨code', shown', fun arith cs => ?_⟩
    rw [body', lines]
    obtain ⟨still, others⟩ := run_renamed arith cs virt rfl ne ops
    refine ⟨fun one isNoted apart => others one (apart rfl) ?_, by simp, fun _ => still⟩
    rintro rfl
    exact unused isNoted

end Seeding

end RegisterChains

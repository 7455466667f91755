/-
This file shows that a cache of copies stays in order whatever is asked of it, and of the graph
whose nodes it marks. Three things are kept in step: the copies that are known, the lists of
copies by value, and the marks on nodes. A key that is free again can be given to another copy,
so nothing may name a copy that is forgotten: it is struck off its list and its mark is taken
back at once, and a list that would be left empty is not kept. The members of arrays carry a
mark of their own, which no copy ever replaces.

The cache tells the truth as well. What registers hold is left open: a write may put anything into
any register. A write is only noted, a copy is noted as a write and may then be remembered, in
either direction, for the two registers hold the same by then. So whatever happens, a register
that is known to hold a copy holds the same as the register it is a copy of.
-/

import RegisterChains.Machine
import RegisterChains.Proofs.Chain.Upkeep
import RegisterChains.Proofs.Seeding.Seeded

namespace RegisterChains

open List MachineSpec Seeding Step

namespace ChainGraph

variable {g after : ChainGraph} {r : Register}

/-! ### What nodes carry -/

theorem Carries.refl (g : ChainGraph) : g.Carries g where
  find _ _ named := named
  node _ node found := ⟨node, found, rfl⟩
  fresh id node' missing found := by
    rw [missing] at found
    cases found
  pins _ := rfl

theorem Recast.carries_cut {cut : List NodeId} (recast : g.Recast after (cutNode cut)) :
    g.Carries after where
  find r _ named := (recast.find r).trans named
  node _ _ found := ⟨_, recast.some found, rfl⟩
  fresh _ _ missing found := by
    obtain ⟨node, isNode, _⟩ := recast.exists_of_some found
    rw [missing] at isNode
    cases isNode
  pins := recast.pinAt_cut

/-- A request that takes no register out of the graph. -/
def Request.Lasting : Request → Prop
  | .release _ => False
  | _ => True

theorem Sound.carries_link (sound : g.Sound) (lo hi : Register) (must via : Bool) :
    g.Carries (g.link lo hi must via).graph := by
  obtain ⟨sound', grows⟩ := sound.grows_link lo hi must via
  exact grows.carries sound.toShaped sound'.toShaped

theorem Sound.carries_perform (sound : g.Sound) {request : Request} (lasting : request.Lasting) :
    g.Carries (request.perform g) := by
  have evolved : ∀ {grown : ChainGraph}, g.Evolves grown → g.Carries grown :=
    fun evolves => evolves.grows.carries sound.toShaped evolves.sound.toShaped
  have cut : ∀ id, g.Carries (g.unlink id).graph := fun id =>
    (sound.toShaped.recast_unlink id).carries_cut
  cases request with
  | create r => exact evolved (sound.evolves_create r)
  | link first firstHint second secondHint must via =>
    show g.Carries ((ChainGraph.linkHinted first firstHint second secondHint must via).leaves g)
    rcases sound.linkHinted_leaves first firstHint second secondHint must via with
      same | linked
    · rw [same]
      exact .refl g
    · rw [linked]
      exact sound.carries_link first second must via
  | cutAfter id => exact leaves_of_node (.refl g) (cut id)
  | cutBefore id => exact leaves_of_node (.refl g) (unlinkPrev_of_cuts (.refl g) cut id)
  | demandParity id parity must =>
    exact evolved (sound.evolves_demandParity id parity must)
  | commit regs parity via =>
    exact evolved (sound.evolves_commit regs parity via)
  | release r => exact absurd lasting id

end ChainGraph

namespace Tracking

open ChainGraph

variable {track after : Tracking} {start : ChainGraph}

/-- A cache whose copies, lists and marks agree, and a graph whose arrays are those it started
with. -/
structure Kept (start : ChainGraph) (track : Tracking) : Prop where
  sound : track.Sound
  arrays : start.SameArrays track.graph

theorem Kept.tends {regs : List Register} (kept : Kept start track)
    (tends : track.Tends regs after) :
    Kept start after := ⟨tends.sound, kept.arrays.trans tends.arrays⟩

theorem kept_empty {g : ChainGraph} (sound : g.Sound) (unmarked : Unmarked g) (blk : BlockId) :
    Kept g ⟨.empty blk, g⟩ := ⟨sound_empty sound unmarked blk, fun _ _ => Iff.rfl⟩

/-! ### Requests in any order -/

/-- What can be asked of a cache and its graph. Looking up copies, those that can be
overwritten among them, changes nothing. -/
inductive Request where
  | record (value dest : Register) (origin : Option InstructionId) (place : UInt32) (owned : Bool)
  | use (reg : Register) (place : UInt32)
  | define (reg : Register)
  | remove (id : CopyId)
  | clear
  | constrain (request : ChainGraph.Request) (lasting : request.Lasting)

/-- The cache and the graph that a request leaves behind. -/
def Request.perform (track : Tracking) : Request → Tracking
  | .record v dest origin place owned =>
    (recordCopy v dest origin place owned).leaves track
  | .use r place => track.noteUse r place
  | .define r => track.noteDef r
  | .remove id => track.remove id
  | .clear => Tracking.clear.leaves track
  | .constrain request _ => { track with graph := request.perform track.graph }

theorem Kept.perform (kept : Kept start track) (request : Request) :
    Kept start (request.perform track) := by
  have sound := kept.sound
  cases request with
  | record v dest origin place owned =>
    obtain ⟨_, _, ran, records⟩ := sound.exists_recordCopy v dest origin place owned
    rw [← ran.leaves_eq] at records
    exact kept.tends records.tends
  | use r place => exact kept.tends (sound.noteUse r place).1
  | define r => exact kept.tends (sound.noteDef r).1
  | remove id => exact kept.tends (sound.remove id).1
  | clear =>
    have cleared := sound.removeAll.1
    rw [← sound.clear.1.leaves_eq] at cleared
    exact kept.tends cleared
  | constrain request lasting =>
    have carries := sound.graph.carries_perform lasting
    exact ⟨sound.carries (ChainGraph.upkept_sound.perform sound.graph request) carries,
      kept.arrays.trans carries.sameArrays⟩

/-- A cache and its graph are in order: each copy is listed once, under its value; each list
has copies in it, all of them known; the marks on nodes are those of the known copies; no
register holds two copies; the members of arrays are those of `start`. So copies can be looked
up, and forgetting them all leaves no list and ending the block leaves no mark. -/
structure Orderly (start : ChainGraph) (track : Tracking) : Prop where
  listed : ∀ id record value, track.cache.records.get? id = some record →
    (track.cache.classOf value).count id = if value = record.value then 1 else 0
  classes : ∀ value ids, track.cache.classes.get? value = some ids →
    ids ≠ [] ∧ ∀ id ∈ ids, ∃ record, track.cache.records.get? id = some record
  placed : ∀ id record, track.cache.records.get? id = some record →
    track.graph.find record.dest = some record.node
  marks : ∀ place id, (∃ node, track.graph.node? place = some node ∧ node.payload = .copy id) ↔
      ∃ record, track.cache.records.get? id = some record ∧ record.node = place
  dests : ∀ id id' record record', track.cache.records.get? id = some record →
    track.cache.records.get? id' = some record' → record.dest = record'.dest → id = id'
  arrays : start.SameArrays track.graph
  holders : ∀ value, ∃ records, track.cache.holders value = .ok records
  clears : ∃ after, Tracking.clear.Yields track () after ∧ after.cache.classes.isEmpty = true
  finishes : ∃ after, finish.Yields track () after ∧ Unmarked after.graph

theorem Kept.orderly (kept : Kept start track) : Orderly start track where
  listed id record v found := by
    have isMem := kept.sound.listed v id
    split
    · next same =>
      exact count_eq_one_of_mem (kept.sound.tidy.once v) (isMem.mpr ⟨record, found, same.symm⟩)
    · next ne =>
      refine count_eq_zero.mpr fun mem => ne ?_
      obtain ⟨one, isOther, same⟩ := isMem.mp mem
      cases found.symm.trans isOther
      exact same.symm
  classes v ids isClass := by
    refine ⟨fun bare => kept.sound.tidy.filled v (bare ▸ isClass), fun id mem => ?_⟩
    have isMem : id ∈ track.cache.classOf v := by
      simpa [CopyCache.classOf, isClass] using mem
    obtain ⟨record, found, _⟩ := (kept.sound.listed v id).mp isMem
    exact ⟨record, found⟩
  placed id record found := (kept.sound.marked id record found).1
  marks node id := by
    constructor
    · rintro ⟨n, isNode, payload⟩
      exact kept.sound.known node n id isNode payload
    · rintro ⟨record, found, rfl⟩
      exact (kept.sound.marked id record found).2
  dests id id' record record' found found' same := by
    have held := kept.sound.recordFor_eq.mpr ⟨found, same⟩
    have held' := kept.sound.recordFor_eq.mpr ⟨found', rfl⟩
    rw [held] at held'
    cases held'
    rfl
  arrays := kept.arrays
  holders := kept.sound.exists_holders
  clears := ⟨_, kept.sound.clear⟩
  finishes := ⟨_, kept.sound.finish, kept.sound.removeAll.2.2⟩

/-- Whatever is asked of a new cache and of a graph without marks, in whatever order, the two
are in order after it. -/
theorem orderly_requests {graph : ChainGraph} (sound : graph.Sound) (unmarked : Unmarked graph)
    (block : BlockId) (requests : List Request) :
    Orderly graph (requests.foldl Request.perform ⟨.empty block, graph⟩) := by
  have kept : Kept graph (requests.foldl Request.perform ⟨.empty block, graph⟩) :=
    foldlRecOn requests Request.perform (motive := Kept graph)
      (kept_empty sound unmarked block) fun _ holds request _ => holds.perform request
  exact kept.orderly

/-! ### Copies beside an array -/

/-- A program that has nothing but an array of two registers. -/
def arrayOnly : Program :=
  (Program.declare (.array [.temp 1, .temp 2])).leaves (.empty "main")

/-- The constraints on that program on the standard target. -/
def arrayGraph : ChainGraph :=
  (seedAll.leaves (.start standard.target arrayOnly)).graph

theorem sound_arrayGraph : arrayGraph.Sound ∧ Unmarked arrayGraph := by
  have declares : (Program.declare (.array [.temp 1, .temp 2])).Yields
      (.empty "main") ⟨0⟩ arrayOnly := ⟨rfl, rfl⟩
  have built : arrayOnly.Built fun _ => True := .declare (.empty "main") declares
  have seeds : (seedEach [⟨0⟩]).Yields (.start standard.target arrayOnly) ()
      (seedAll.leaves (.start standard.target arrayOnly)) := ⟨rfl, rfl⟩
  have pinned := (seedEach_yields (consistent_start built.closed) seeds).1.pinned
  exact ⟨pinned.sound, pinned.unmarked⟩

/-- Two copies of one register are made, one of which is put in front of the other and then
written; a member of the array is left alone. -/
def arrayRequests : List Request :=
  [.record (.temp 9) (.temp 1) none 0 true, .record (.temp 9) (.temp 10) none 1 true,
    .record (.temp 9) (.temp 11) none 2 false, .use (.temp 11) 4,
    .constrain (.link (.temp 10) none (.temp 11) none true true) trivial, .define (.temp 10)]

theorem orderly_arrayRequests : arrayGraph.Sound ∧ Unmarked arrayGraph ∧
      Orderly arrayGraph (arrayRequests.foldl Request.perform ⟨.empty ⟨0⟩, arrayGraph⟩) := by
  obtain ⟨sound, unmarked⟩ := sound_arrayGraph
  exact ⟨sound, unmarked, orderly_requests sound unmarked ⟨0⟩ arrayRequests⟩

/-- One copy is left. -/
example : (arrayRequests.foldl Request.perform ⟨.empty ⟨0⟩, arrayGraph⟩).cache.classes.pairs =
    [(.temp 9, [⟨1⟩])] := by
  decide

end Tracking

/-! ### What a cache says is true -/

namespace Tracking

open ChainGraph Function

variable {α : Type} {track : Tracking} {start : ChainGraph} {dest v : Register}

/-- A request that makes the cache learn of no copy. -/
def Request.Forgets : Request → Prop
  | .record .. => False
  | _ => True

/-- A request that is not to remember a copy adds none. -/
theorem Kept.knows_perform (kept : Kept start track) {request : Request}
    (forgets : request.Forgets) {owned : Bool}
    (known : (request.perform track).Knows v dest owned) : track.Knows v dest owned := by
  cases request with
  | record => exact absurd forgets id
  | use r place => exact ((kept.sound.noteUse r place).2 v dest owned).mp known
  | define r => exact ((kept.sound.knows_noteDef r).mp known).1
  | remove id =>
    obtain ⟨one, record, found, same⟩ := known
    rw [Request.perform, (kept.sound.remove id).2] at found
    split at found
    · cases found
    · exact ⟨one, record, found, same⟩
  | clear =>
    obtain ⟨one, record, found, _⟩ := known
    rw [Request.perform, kept.sound.clear.1.leaves_eq, kept.sound.removeAll.2.1] at found
    cases found
  | constrain request lasting => exact known

/-! ### Registers and a cache that is kept with them -/

/-- What every register holds, and a cache that is kept meanwhile. -/
structure Watch (α : Type) where
  holds : Register → α
  tracking : Tracking

/-- How a copy from `source` to `dest` is remembered: as a copy of `source` in `dest`, or the
other way round. -/
structure Remark where
  reversed : Bool
  origin : Option InstructionId
  place : UInt32
  owned : Bool

/-- What can happen to registers while a cache is kept. -/
inductive Event (α : Type) where
  | write (reg : Register) (value : α)
  | copy (dest source : Register) (remark : Option Remark)
  | ask (request : Request) (forgets : request.Forgets)

/-- The request to remember a copy that was made. -/
def Remark.request (remark : Remark) (dest source : Register) : Request :=
  if remark.reversed then .record dest source remark.origin remark.place remark.owned
  else .record source dest remark.origin remark.place remark.owned

/-- Every write is noted before anything else is asked. -/
def Watch.write (watch : Watch α) (r : Register) (v : α) : Watch α :=
  ⟨update watch.holds r v, watch.tracking.noteDef r⟩

/-- A request changes no register. -/
def Watch.ask (watch : Watch α) (request : Request) : Watch α :=
  { watch with tracking := request.perform watch.tracking }

/-- The registers and the cache after something happened. -/
def Event.perform (watch : Watch α) : Event α → Watch α
  | .write r v => watch.write r v
  | .copy dest source none => watch.write dest (watch.holds source)
  | .copy dest source (some remark) =>
    (watch.write dest (watch.holds source)).ask (remark.request dest source)
  | .ask request _ => watch.ask request

/-! ### What is known is true -/

/-- The registers that are known to hold copies hold them. -/
def Watch.Honest (watch : Watch α) : Prop :=
  ∀ v dest owned, watch.tracking.Knows v dest owned → watch.holds dest = watch.holds v

variable {watch : Watch α}

/-- A write makes the cache forget all that it could make wrong. -/
theorem Watch.Honest.write (honest : watch.Honest) (sound : watch.tracking.Sound) (r : Register)
    (content : α) : (watch.write r content).Honest := by
  intro v dest owned known
  obtain ⟨pre, valueKept, destKept⟩ := (sound.knows_noteDef r).mp known
  show update watch.holds r content dest = update watch.holds r content v
  rw [update_of_ne destKept, update_of_ne valueKept]
  exact honest v dest owned pre

section

variable (honest : watch.Honest) (kept : Kept start watch.tracking)

include honest kept

/-- Registers that hold the same may be remembered as copies of each other. -/
theorem Watch.Honest.record (origin : Option InstructionId) (place : UInt32) (owned : Bool)
    (same : watch.holds dest = watch.holds v) :
    (watch.ask (.record v dest origin place owned)).Honest := by
  obtain ⟨_, after, ran, records⟩ := kept.sound.exists_recordCopy v dest origin place owned
  intro v' dest' owned' known
  rw [← ran.leaves_eq] at records
  rcases records.of_knows known with old | ⟨rfl, rfl, _⟩
  · exact honest v' dest' owned' old
  · exact same

theorem Watch.Honest.ask {request : Request} (forgets : request.Forgets) :
    (watch.ask request).Honest :=
  fun v dest owned known => honest v dest owned (kept.knows_perform forgets known)

/-- After a copy was made, the two registers hold the same, so it may be remembered in either
direction. -/
theorem Watch.Honest.remark {source : Register} (remark : Remark)
    (same : watch.holds dest = watch.holds source) :
    (watch.ask (remark.request dest source)).Honest := by
  unfold Remark.request
  split
  · exact honest.record kept remark.origin remark.place remark.owned same.symm
  · exact honest.record kept remark.origin remark.place remark.owned same

end

theorem Watch.holds_write_copy (watch : Watch α) (dest source : Register) :
    (watch.write dest (watch.holds source)).holds dest =
      (watch.write dest (watch.holds source)).holds source := by
  show update watch.holds dest (watch.holds source) dest =
    update watch.holds dest (watch.holds source) source
  by_cases same : source = dest
  · rw [same]
  · rw [update_self, update_of_ne same]

/-- What one event keeps. -/
theorem Event.keeps (event : Event α) (kept : Kept start watch.tracking) (honest : watch.Honest) :
    Kept start (event.perform watch).tracking ∧ (event.perform watch).Honest := by
  cases event with
  | write r v => exact ⟨kept.tends (kept.sound.noteDef r).1, honest.write kept.sound r v⟩
  | copy dest source remark =>
    have kept' : Kept start (watch.write dest (watch.holds source)).tracking :=
      kept.tends (kept.sound.noteDef dest).1
    have honest' := honest.write kept.sound dest (watch.holds source)
    cases remark with
    | none => exact ⟨kept', honest'⟩
    | some remark =>
      exact ⟨kept'.perform _, honest'.remark kept' remark (watch.holds_write_copy dest source)⟩
  | ask request forgets => exact ⟨kept.perform request, honest.ask kept forgets⟩

/-- A cache is right about the registers: every copy that is known, what a register is said to
be a copy of, and every register that is listed for a value. -/
structure Watch.Right (watch : Watch α) : Prop where
  records : ∀ id record, watch.tracking.cache.records.get? id = some record →
    watch.holds record.dest = watch.holds record.value
  valueOf : ∀ reg value, watch.tracking.valueOf reg = some value →
    watch.holds reg = watch.holds value
  holders : ∀ value, ∃ records, watch.tracking.cache.holders value = .ok records ∧
    ∀ record ∈ records, watch.holds record.dest = watch.holds value

theorem Watch.Honest.right (honest : watch.Honest) (kept : Kept start watch.tracking) :
    watch.Right := by
  have records : ∀ id record, watch.tracking.cache.records.get? id = some record →
      watch.holds record.dest = watch.holds record.value := fun id record found =>
    honest record.value record.dest record.owned ⟨id, record, found, rfl, rfl, rfl⟩
  refine ⟨records, fun r v known => ?_, fun v => ?_⟩
  · obtain ⟨id, record, found, rfl, rfl⟩ := kept.sound.valueOf_eq_some known
    exact records id record found
  · obtain ⟨copies, listed⟩ := kept.sound.exists_holders v
    refine ⟨copies, listed, fun record mem => ?_⟩
    obtain ⟨id, found, rfl⟩ := kept.sound.of_holders listed mem
    exact records id record found

/-- Whatever registers hold at first and whatever happens to them, a cache that is kept
meanwhile is right about them. -/
theorem right_events {graph : ChainGraph} (sound : graph.Sound) (unmarked : Unmarked graph)
    (block : BlockId) (holds : Register → α) (events : List (Event α)) :
    (events.foldl Event.perform ⟨holds, .empty block, graph⟩).Right := by
  have kept : Kept graph (events.foldl Event.perform ⟨holds, .empty block, graph⟩).tracking ∧
      (events.foldl Event.perform ⟨holds, .empty block, graph⟩).Honest := by
    refine List.foldlRecOn events Event.perform
      (motive := fun watch => Kept graph watch.tracking ∧ watch.Honest) ⟨?_, ?_⟩ ?_
    · exact kept_empty sound unmarked block
    · rintro value dest owned ⟨id, record, found, _⟩
      cases found
    · exact fun _ both event _ => event.keeps both.1 both.2
  exact kept.2.right kept.1

/-- A register is copied to a second one and that to a third, remembered the other way round;
then the first is written and copied to a member of an array. -/
def arrayEvents : List (Event Nat) :=
  [.copy (.temp 10) (.temp 9) (some ⟨false, none, 0, true⟩),
    .copy (.temp 11) (.temp 10) (some ⟨true, none, 1, false⟩), .write (.temp 9) 7,
    .copy (.temp 1) (.temp 9) (some ⟨false, none, 3, false⟩), .ask (.use (.temp 10) 4) trivial]

theorem right_arrayEvents :
    arrayGraph.Sound ∧ Unmarked arrayGraph ∧ (arrayEvents.foldl Event.perform
      ⟨fun register => register.number.toNat, .empty ⟨0⟩, arrayGraph⟩).Right := by
  obtain ⟨sound, unmarked⟩ := sound_arrayGraph
  exact ⟨sound, unmarked, right_events sound unmarked ⟨0⟩ _ arrayEvents⟩

/-- The second register is known to hold what the third does, and the array is not known to
hold anything. -/
example :
    let watch := arrayEvents.foldl Event.perform ⟨fun r => r.number.toNat, .empty ⟨0⟩, arrayGraph⟩
    watch.tracking.valueOf (.temp 10) = some (.temp 11) ∧ watch.holds (.temp 10) = 9 ∧
      watch.tracking.valueOf (.temp 1) = none := by
  decide +kernel

end Tracking

end RegisterChains

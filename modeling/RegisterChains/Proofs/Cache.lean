/-
This file proves that a cache of copies is consistent: a copy is listed under the value it
holds and nowhere else, and the node of a register is marked with the copy it holds exactly
as long as the copy is known. So all copies that a write makes wrong are found, and none is
left when the block ends. Nothing else about the constraints changes.
-/

import RegisterChains.CopyCache
import RegisterChains.Proofs.Chain.Committing

namespace RegisterChains

open List Pool Step

namespace ChainGraph

variable {g mid after : ChainGraph} {r : Register}

/-- Nodes keep their registers, their pins and what they carry, and a new node has none of
these. -/
structure Carries (g after : ChainGraph) : Prop where
  find : ∀ reg id, g.find reg = some id → after.find reg = some id
  node : ∀ id node, g.node? id = some node →
    ∃ node', after.node? id = some node' ∧ node'.payload = node.payload
  fresh : ∀ id node', g.node? id = none → after.node? id = some node' → node'.payload = .empty
  pins : ∀ reg, after.pinAt reg = g.pinAt reg

/-- What a node carries it carried before. -/
theorem Carries.before (carries : g.Carries after) {id : NodeId} {node' : Node}
    (isNode' : after.node? id = some node') (filled : node'.payload ≠ .empty) :
    ∃ n, g.node? id = some n ∧ n.payload = node'.payload := by
  cases isNode : g.node? id with
  | none => exact absurd (carries.fresh id node' isNode isNode') filled
  | some n =>
    obtain ⟨one, isOther, payload⟩ := carries.node id n isNode
    cases isNode'.symm.trans isOther
    exact ⟨n, rfl, payload.symm⟩

theorem Grows.carries (grows : g.Grows after) (shaped : g.Shaped) (shaped' : after.Shaped) :
    g.Carries after where
  find _ _ named := grows.find shaped shaped' named
  node id node found := by
    obtain ⟨node', isNode', _, _, payload, _⟩ := grows.node id node found
    exact ⟨node', isNode', payload⟩
  fresh id node' missing found := (grows.fresh id node' missing found).2
  pins := grows.pinAt shaped shaped'

/-! ### Members of arrays -/

/-- A node stands for a member of an array. -/
def Arrayed (g : ChainGraph) (node : NodeId) (bnd : BindingId) : Prop :=
  ∃ n, g.node? node = some n ∧ n.payload = .arrayMember bnd

/-- The same nodes stand for members of the same arrays. -/
def SameArrays (g after : ChainGraph) : Prop :=
  ∀ node bnd, after.Arrayed node bnd ↔ g.Arrayed node bnd

theorem SameArrays.trans (first : g.SameArrays mid) (second : mid.SameArrays after) :
    g.SameArrays after :=
    fun node bnd =>
  (second node bnd).trans (first node bnd)

theorem Carries.sameArrays (carries : g.Carries after) : g.SameArrays after := by
  intro node bnd
  constructor
  · rintro ⟨node', isNode', payload'⟩
    obtain ⟨n, isNode, payload⟩ := carries.before isNode' (by rw [payload']; simp)
    exact ⟨n, isNode, payload.trans payload'⟩
  · rintro ⟨n, isNode, payload⟩
    obtain ⟨node', isNode', payload'⟩ := carries.node node n isNode
    exact ⟨node', isNode', payload'.trans payload⟩

/-- Writing on a node that is no member of an array, and does not become one. -/
theorem sameArrays_update (pool : g.nodes.Sound) (id : NodeId) (change : Node → Node)
    (same : ∀ n bnd, g.node? id = some n →
      ((change n).payload = .arrayMember bnd ↔ n.payload = .arrayMember bnd)) :
    g.SameArrays (g.update id change) := by
  have recast := recast_update pool id change
  intro node bnd
  constructor
  · rintro ⟨ch, isChanged, payload⟩
    obtain ⟨n, isNode, rfl⟩ := recast.exists_of_some isChanged
    refine ⟨n, isNode, ?_⟩
    split at payload
    · next here => exact (same n bnd (here ▸ isNode)).mp payload
    · exact payload
  · rintro ⟨n, isNode, payload⟩
    refine ⟨_, recast.some isNode, ?_⟩
    split
    · next here => exact (same n bnd (here ▸ isNode)).mpr payload
    · exact payload

/-- A register is no member of an array. -/
def Scalar (g : ChainGraph) (r : Register) : Prop :=
  ∀ id bnd, g.find r = some id → ¬ g.Arrayed id bnd

theorem Scalar.mono (scalar : g.Scalar r) (sound : g.Sound) (sound' : after.Sound)
    (arrays : g.SameArrays after)
    (finds : ∀ one id, g.find one = some id → after.find one = some id) : after.Scalar r := by
  intro id bnd named arrayed
  obtain ⟨n, found, payload⟩ := (arrays id bnd).mp arrayed
  have named' := sound.find_of_node? found
  have same := (sound'.registerOf_find (finds _ _ named')).symm.trans (sound'.registerOf_find named)
  exact scalar id bnd (same ▸ named') ⟨n, found, payload⟩

end ChainGraph

/-! ### Lists of copies -/

namespace CopyCache

variable {cache : CopyCache}

theorem classOf_strike (cache : CopyCache) (v other : Register) (id : CopyId) :
    (cache.strike v id).classOf other =
      if other = v then (cache.classOf v).filter (· ≠ id) else cache.classOf other := by
  unfold strike classOf
  cases listed : cache.classes.get? v with
  | none =>
    simp only
    split
    · next same => simp [same, listed]
    · rfl
  | some ids =>
    simp only [Option.getD_some]
    by_cases none : (ids.filter (· ≠ id)).isEmpty = true
    · rw [if_pos none, Assoc.get?_erase]
      split
      · rw [isEmpty_iff.mp none]
        rfl
      · rfl
    · rw [if_neg none, Assoc.get?_insert]
      split
      · rfl
      · rfl

theorem records_strike (cache : CopyCache) (v : Register) (id : CopyId) :
    (cache.strike v id).records = cache.records := by
  unfold strike
  split <;> rfl

theorem classOf_enlist (cache : CopyCache) (v other : Register) (id : CopyId) :
    (cache.enlist v id).classOf other =
      if other = v then cache.classOf v ++ [id] else cache.classOf other := by
  unfold enlist classOf
  rw [Assoc.get?_insert]
  split
  · rfl
  · rfl

/-- A copy is listed at most once under a value, and a value without copies is not listed. -/
structure Tidy (cache : CopyCache) : Prop where
  once : ∀ value, (cache.classOf value).Nodup
  filled : ∀ value, cache.classes.get? value ≠ some []

theorem tidy_empty (blk : BlockId) : (empty blk).Tidy where
  once _ := nodup_nil
  filled _ no := by cases no

theorem Tidy.strike (tidy : cache.Tidy) (v : Register) (id : CopyId) :
    (cache.strike v id).Tidy where
  once one := by
    rw [classOf_strike]
    split
    · exact (tidy.once v).filter _
    · exact tidy.once one
  filled one := by
    unfold CopyCache.strike
    split
    · exact tidy.filled one
    · next ids listed =>
      simp only
      split
      · rw [Assoc.get?_erase]
        split
        · simp
        · exact tidy.filled one
      · next left =>
        rw [Assoc.get?_insert]
        split
        · intro same
          rw [Option.some_inj.mp same] at left
          exact left rfl
        · exact tidy.filled one

theorem Tidy.enlist (tidy : cache.Tidy) {v : Register} {id : CopyId}
    (unlisted : id ∉ cache.classOf v) : (cache.enlist v id).Tidy where
  once other := by
    rw [classOf_enlist]
    split
    · exact nodup_append.mpr ⟨tidy.once v, nodup_singleton id,
        fun one mem other here same => unlisted (by
          rw [mem_singleton.mp here] at same
          exact same ▸ mem)⟩
    · exact tidy.once other
  filled other := by
    unfold CopyCache.enlist
    rw [Assoc.get?_insert]
    split
    · simp
    · exact tidy.filled other

end CopyCache

namespace Tracking

open ChainGraph

variable {track mid after : Tracking} {v r : Register} {record : CopyRecord} {grown g : ChainGraph}
  {id : CopyId} {regs others : List Register}

theorem alike_unmark (sound : g.Sound) (n : NodeId) (id : CopyId) : g.Alike (unmark g n id) := by
  refine sound.alike_label ⟨⟨?_, ?_, ?_, ?_, ?_⟩, ?_, ?_⟩ ?_ n
  all_goals
    intro n
    split <;> rfl

theorem alike_remember (sound : track.graph.Sound) (record : CopyRecord) :
    track.graph.Alike (track.remember record).2.graph := by
  have labels : Labels fun n =>
      { n with payload := .copy (track.cache.records.insert record).1 } := {}
  exact sound.alike_label labels (fun _ => rfl) record.node

/-- The copies that are known, the lists they are in and the marks on nodes agree. -/
structure Sound (track : Tracking) : Prop where
  graph : track.graph.Sound
  pool : track.cache.records.Sound
  marked : ∀ id record, track.cache.records.get? id = some record →
    track.graph.find record.dest = some record.node ∧
      ∃ node, track.graph.node? record.node = some node ∧ node.payload = .copy id
  known : ∀ place node id, track.graph.node? place = some node → node.payload = .copy id →
    ∃ record, track.cache.records.get? id = some record ∧ record.node = place
  listed : ∀ value id, id ∈ track.cache.classOf value ↔
    ∃ record, track.cache.records.get? id = some record ∧ record.value = value
  tidy : track.cache.Tidy
  virtual : ∀ id record, track.cache.records.get? id = some record → record.dest.isVirtual = true

/-- No node is marked with a copy. -/
def Unmarked (g : ChainGraph) : Prop :=
  ∀ node n id, g.node? node = some n → n.payload ≠ .copy id

theorem sound_empty (sound : g.Sound) (unmarked : Unmarked g) (blk : BlockId) :
    Sound ⟨.empty blk, g⟩ where
  graph := sound
  pool := Pool.sound_empty
  marked _ _ found := by cases found
  known node n id found payload := absurd payload (unmarked node n id found)
  listed v id := by
    constructor
    · intro mem
      cases mem
    · rintro ⟨_, found, _⟩
      cases found
  tidy := CopyCache.tidy_empty blk
  virtual _ _ found := by cases found

theorem Unmarked.grows (unmarked : Unmarked g) (grows : g.Grows grown) : Unmarked grown := by
  intro node node' id isNode' payload'
  cases isNode : g.node? node with
  | none =>
    rw [(grows.fresh node node' isNode isNode').2] at payload'
    cases payload'
  | some n =>
    obtain ⟨one, isOther, _, _, payload, _⟩ := grows.node node n isNode
    cases isNode'.symm.trans isOther
    exact unmarked node n id isNode (payload.symm.trans payload')

section

variable (sound : track.Sound)

include sound

/-- A change that leaves what nodes carry alone leaves the marks alone. -/
theorem Sound.carries (sound' : grown.Sound) (carries : track.graph.Carries grown) :
    Sound { track with graph := grown } where
  graph := sound'
  pool := sound.pool
  marked id record found := by
    obtain ⟨named, n, isNode, payload⟩ := sound.marked id record found
    obtain ⟨node', isNode', payload'⟩ := carries.node record.node n isNode
    exact ⟨carries.find record.dest record.node named, node', isNode', payload'.trans payload⟩
  known node node' id isNode' payload' := by
    obtain ⟨n, isNode, payload⟩ := carries.before isNode' (by rw [payload']; simp)
    exact sound.known node n id isNode (payload.trans payload')
  listed := sound.listed
  tidy := sound.tidy
  virtual := sound.virtual

theorem Sound.grows (sound' : grown.Sound) (grows : track.graph.Grows grown) :
    Sound { track with graph := grown } :=
  sound.carries sound' (grows.carries sound.graph.toShaped sound'.toShaped)

/-! ### Looking up copies -/

theorem Sound.recordFor_eq : track.recordFor r = some (id, record) ↔
      track.cache.records.get? id = some record ∧ record.dest = r := by
  unfold recordFor
  constructor
  · intro isRecord
    cases named : track.graph.find r with
    | none =>
      rw [named] at isRecord
      cases isRecord
    | some node =>
      obtain ⟨n, isNode, _⟩ := sound.graph.live_of_find named
      rw [named, Option.bind_some, isNode] at isRecord
      cases payload : n.payload with
      | empty | arrayMember bnd => simp [payload] at isRecord
      | copy mark =>
        simp only [payload, Option.map_eq_some_iff, Prod.mk.injEq] at isRecord
        obtain ⟨found, isFound, rfl, rfl⟩ := isRecord
        obtain ⟨one, isOther, atPlace⟩ := sound.known node n mark isNode payload
        cases isFound.symm.trans isOther
        have named' := (sound.marked mark found isFound).1
        rw [atPlace] at named'
        exact ⟨isFound, sound.graph.find_inj named' named⟩
  · rintro ⟨found, rfl⟩
    obtain ⟨named, n, isNode, payload⟩ := sound.marked id record found
    simp [named, isNode, payload, found]

theorem Sound.recordFor_eq_none : track.recordFor r = none ↔
      ∀ id record, track.cache.records.get? id = some record → record.dest ≠ r := by
  rw [Option.eq_none_iff_forall_ne_some]
  constructor
  · intro missing id record found same
    exact missing (id, record) (sound.recordFor_eq.mpr ⟨found, same⟩)
  · rintro missing ⟨id, record⟩ isRecord
    obtain ⟨found, same⟩ := sound.recordFor_eq.mp isRecord
    exact missing id record found same

/-- What a register is known to hold. -/
theorem Sound.valueOf_eq_some (known : track.valueOf r = some v) :
    ∃ id record, track.cache.records.get? id = some record ∧ record.dest = r ∧
      record.value = v := by
  obtain ⟨⟨id, record⟩, isRecord, rfl⟩ := Option.map_eq_some_iff.mp known
  obtain ⟨found, same⟩ := sound.recordFor_eq.mp isRecord
  exact ⟨id, record, found, same, rfl⟩

/-- The registers that hold a value. -/
theorem Sound.of_holders {records : List CopyRecord}
    (holders : track.cache.holders v = .ok records) (mem : record ∈ records) :
    ∃ id, track.cache.records.get? id = some record ∧ record.value = v := by
  obtain ⟨id, isMem, found⟩ := exists_of_mapM holders mem
  have found := get_eq_ok.mp found
  obtain ⟨one, isOther, same⟩ := (sound.listed v id).mp isMem
  cases found.symm.trans isOther
  exact ⟨id, found, same⟩

theorem Sound.exists_holders (v : Register) : ∃ records, track.cache.holders v = .ok records := by
  refine exists_mapM_eq_ok fun id mem => ?_
  obtain ⟨record, found, _⟩ := (sound.listed v id).mp mem
  exact ⟨record, get_eq_ok.mpr found⟩

/-- A copy of `value` is known to be in `dest`, which may or may not be overwritten. -/
def Knows (track : Tracking) (v dest : Register) (owned : Bool) : Prop :=
  ∃ id record, track.cache.records.get? id = some record ∧ record.value = v ∧
    record.dest = dest ∧ record.owned = owned

theorem Sound.virtual_of_knows {owned : Bool} (known : track.Knows v r owned) :
    r.isVirtual = true := by
  obtain ⟨id, record, found, _, rfl, _⟩ := known
  exact sound.virtual id record found

/-! ### What is done to a cache -/

/-- A cache and its graph stay in order. Constraints and arrays stay as they are, and none but these
registers get a node. -/
structure Tends (track : Tracking) (regs : List Register) (after : Tracking) : Prop where
  sound : after.Sound
  alike : track.graph.Alike after.graph
  arrays : track.graph.SameArrays after.graph
  find : ∀ reg id, track.graph.find reg = some id → after.graph.find reg = some id
  introduces : track.graph.Introduces after.graph regs

theorem Sound.tends_refl : track.Tends [] track :=
  ⟨sound, sound.graph.alike_refl, fun _ _ => Iff.rfl, fun _ _ => id, .of_find_eq fun _ => rfl⟩

end

theorem Tends.trans (first : track.Tends regs mid) (second : mid.Tends others after) :
    track.Tends (regs ++ others) after :=
  ⟨second.sound, first.alike.trans second.alike, first.arrays.trans second.arrays,
    fun r id named => second.find r id (first.find r id named),
    first.introduces.trans second.introduces⟩

theorem Tends.scalar (tends : track.Tends regs after) (sound : track.Sound)
    (scalar : track.graph.Scalar r) : after.graph.Scalar r :=
  scalar.mono sound.graph tends.sound.graph tends.arrays tends.find

/-! ### Forgetting copies -/

theorem remove_of_none (missing : track.cache.records.get? id = none) :
    track.remove id = track := by
  have taken := remove_fst track.cache.records id
  rw [missing] at taken
  unfold remove
  split
  · rfl
  · next removed =>
    rw [removed] at taken
    cases taken

theorem remove_of_some (found : track.cache.records.get? id = some record) : track.remove id =
      { cache := { track.cache with
          records := (track.cache.records.remove id).2 }.strike record.value id
        graph := unmark track.graph record.node id } := by
  have taken := remove_fst track.cache.records id
  rw [found] at taken
  unfold remove
  split
  · next removed =>
    rw [removed] at taken
    cases taken
  · next removed =>
    rw [removed] at taken
    cases taken
    rw [removed]

section

variable (sound : track.Sound)

include sound

theorem Sound.remove (id : CopyId) :
    track.Tends [] (track.remove id) ∧ ∀ one, (track.remove id).cache.records.get? one =
      if one = id then none else track.cache.records.get? one := by
  cases found : track.cache.records.get? id with
  | none =>
    rw [remove_of_none found]
    refine ⟨sound.tends_refl, fun one => ?_⟩
    split
    · next same => rw [same, found]
    · rfl
  | some removed =>
    have gone : ∀ one, (track.remove id).cache.records.get? one =
        if one = id then none else track.cache.records.get? one := by
      intro one
      rw [remove_of_some found, CopyCache.records_strike, get?_remove]
    refine ⟨?_, gone⟩
    have recast := recast_update sound.graph.pool removed.node fun n =>
      if n.payload = .copy id then { n with payload := .empty } else n
    have g : (track.remove id).graph = unmark track.graph removed.node id := by
      rw [remove_of_some found]
    have alike := alike_unmark sound.graph removed.node id
    have arrays : track.graph.SameArrays (unmark track.graph removed.node id) := by
      refine sameArrays_update sound.graph.pool removed.node _ fun n bnd _ => ?_
      split
      · next marked => simp [marked]
      · exact Iff.rfl
    change track.graph.Recast (unmark track.graph removed.node id) _ at recast
    rw [← g] at alike arrays recast
    refine ⟨⟨alike.sound, ?_, ?_, ?_, ?_, ?_, ?_⟩, alike, arrays,
      fun r _ named => (recast.find r).trans named, .of_find_eq recast.find⟩
    · rw [remove_of_some found, CopyCache.records_strike]
      exact sound.pool.remove id
    · intro other record isRecord
      rw [gone] at isRecord
      split at isRecord
      · cases isRecord
      · next ne =>
        obtain ⟨named, n, isNode, payload⟩ := sound.marked other record isRecord
        refine ⟨(recast.find record.dest).trans named, n, ?_, payload⟩
        refine (recast.some isNode).trans (congrArg some ?_)
        have kept : ¬ n.payload = .copy id := by
          rw [payload]
          intro same
          cases same
          exact ne rfl
        simp [kept]
    · intro node node' mark isNode' payload'
      obtain ⟨n, isNode, rfl⟩ := recast.exists_of_some isNode'
      have kept : n.payload = .copy mark ∧ ¬ (node = removed.node ∧ mark = id) := by
        split at payload'
        · next same =>
          split at payload'
          · cases payload'
          · next ne =>
            refine ⟨payload', fun both => ne ?_⟩
            rw [payload', both.2]
        · next ne => exact ⟨payload', fun both => ne both.1⟩
      obtain ⟨record, isRecord, atPlace⟩ := sound.known node n mark isNode kept.1
      refine ⟨record, ?_, atPlace⟩
      rw [gone, if_neg, isRecord]
      rintro rfl
      cases found.symm.trans isRecord
      exact kept.2 ⟨atPlace.symm, rfl⟩
    · intro v one
      have classes : (track.remove id).cache.classOf v =
          if v = removed.value then (track.cache.classOf removed.value).filter (· ≠ id)
          else track.cache.classOf v := by
        rw [remove_of_some found, CopyCache.classOf_strike]
        rfl
      rw [classes, gone]
      by_cases same : one = id
      · subst same
        simp only [if_true, reduceCtorEq, false_and, exists_false, iff_false]
        split
        · simp
        · next ne =>
          rw [sound.listed]
          rintro ⟨record, isRecord, rfl⟩
          cases found.symm.trans isRecord
          exact ne rfl
      · rw [if_neg same, ← sound.listed]
        split
        · next isValue => simp [same, isValue]
        · exact Iff.rfl
    · rw [remove_of_some found]
      have tidy : CopyCache.Tidy { track.cache with
          records := (track.cache.records.remove id).2 } := ⟨sound.tidy.once, sound.tidy.filled⟩
      exact tidy.strike removed.value id
    · intro one record isRecord
      rw [gone] at isRecord
      split at isRecord
      · cases isRecord
      · exact sound.virtual one record isRecord

theorem Sound.removes (ids : List CopyId) : track.Tends [] (ids.foldl Tracking.remove track) ∧
      ∀ one, (ids.foldl Tracking.remove track).cache.records.get? one =
        if one ∈ ids then none else track.cache.records.get? one := by
  induction ids generalizing track with
  | nil => exact ⟨sound.tends_refl, fun one => by simp⟩
  | cons id rest ih =>
    obtain ⟨removed, gone⟩ := sound.remove id
    obtain ⟨removed', gone'⟩ := ih removed.sound
    refine ⟨removed.trans removed', fun one => ?_⟩
    rw [foldl_cons, gone', gone]
    by_cases same : one = id
    · simp [same]
    · simp [same]

/-- A write makes the cache forget what the register held and which registers held it. -/
theorem Sound.noteDef (r : Register) : track.Tends [] (track.noteDef r) ∧ ∀ id record,
      (track.noteDef r).cache.records.get? id = some record ↔
        track.cache.records.get? id = some record ∧ record.value ≠ r ∧ record.dest ≠ r := by
  obtain ⟨removed, gone⟩ := sound.removes (track.cache.classOf r)
  have unlisted : ∀ id record,
      ((track.cache.classOf r).foldl Tracking.remove track).cache.records.get? id =
        some record ↔ track.cache.records.get? id = some record ∧ record.value ≠ r := by
    intro id record
    rw [gone]
    by_cases mem : id ∈ track.cache.classOf r
    · rw [if_pos mem]
      obtain ⟨another, isOther, v⟩ := (sound.listed r id).mp mem
      refine iff_of_false (by simp) ?_
      rintro ⟨found, ne⟩
      cases found.symm.trans isOther
      exact ne v
    · rw [if_neg mem]
      refine (and_iff_left_of_imp fun found => ?_).symm
      exact fun v => mem ((sound.listed r id).mpr ⟨record, found, v⟩)
  unfold Tracking.noteDef
  simp only
  split
  · next id held isHeld =>
    obtain ⟨found, dest⟩ := removed.sound.recordFor_eq.mp isHeld
    obtain ⟨removed', gone'⟩ := removed.sound.remove id
    refine ⟨removed.trans removed', fun another record => ?_⟩
    rw [gone', ← and_assoc, ← unlisted]
    by_cases same : another = id
    · rw [if_pos same, same]
      refine iff_of_false (by simp) ?_
      rintro ⟨isRecord, ne⟩
      cases found.symm.trans isRecord
      exact ne dest
    · rw [if_neg same]
      refine (and_iff_left_of_imp fun isRecord isDest => same ?_).symm
      have one := removed.sound.recordFor_eq.mpr ⟨isRecord, isDest⟩
      rw [isHeld] at one
      cases one
      rfl
  · next missing =>
    refine ⟨removed, fun other record => ?_⟩
    rw [← and_assoc, ← unlisted]
    exact (and_iff_left_of_imp fun isRecord =>
      removed.sound.recordFor_eq_none.mp missing other record isRecord).symm

theorem Sound.noteDefs (regs : List Register) :
    track.Tends [] (regs.foldl Tracking.noteDef track) ∧ ∀ id record,
      (regs.foldl Tracking.noteDef track).cache.records.get? id = some record ↔
        track.cache.records.get? id = some record ∧ record.value ∉ regs ∧ record.dest ∉ regs := by
  induction regs generalizing track with
  | nil => exact ⟨sound.tends_refl, fun id record => by simp⟩
  | cons r rest ih =>
    obtain ⟨noted, left⟩ := sound.noteDef r
    obtain ⟨noted', left'⟩ := ih noted.sound
    refine ⟨noted.trans noted', fun id record => ?_⟩
    rw [foldl_cons, left', left]
    simp only [mem_cons, not_or]
    tauto

theorem Sound.unmarked (none : ∀ id, track.cache.records.get? id = none) :
    Unmarked track.graph := by
  intro node n id isNode payload
  obtain ⟨record, found, _⟩ := sound.known node n id isNode payload
  rw [none] at found
  cases found

/-- Nothing is known when all copies are forgotten, and no mark is left. -/
theorem Sound.removeAll : track.Tends [] track.removeAll ∧
    (∀ id, track.removeAll.cache.records.get? id = none) ∧ Unmarked track.removeAll.graph := by
  obtain ⟨removed, gone⟩ := sound.removes track.cache.records.keys
  have none : ∀ id, track.removeAll.cache.records.get? id = none := by
    intro id
    show ((track.cache.records.keys).foldl Tracking.remove track).cache.records.get? id = none
    rw [gone]
    split
    · rfl
    · next outside =>
      cases found : track.cache.records.get? id with
      | none => rfl
      | some record => exact absurd (mem_keys.mpr ⟨record, found⟩) outside
  exact ⟨removed, none, removed.sound.unmarked none⟩

/-- The computation that forgets every copy ends, and no value is listed any more. -/
theorem Sound.clear : Tracking.clear.Yields track () track.removeAll ∧
      track.removeAll.cache.classes.isEmpty = true := by
  obtain ⟨cleared, gone, _⟩ := sound.removeAll
  have unlisted : ∀ v, track.removeAll.cache.classes.get? v = none := by
    intro v
    cases listed : track.removeAll.cache.classes.get? v with
    | none => rfl
    | some ids =>
      cases ids with
      | nil => exact absurd listed (cleared.sound.tidy.filled v)
      | cons id others =>
        have mem : id ∈ track.removeAll.cache.classOf v := by
          simp [CopyCache.classOf, listed]
        obtain ⟨record, found, _⟩ := (cleared.sound.listed v id).mp mem
        rw [gone] at found
        cases found
  have bare := Assoc.isEmpty_of_get? unlisted
  refine ⟨?_, bare⟩
  unfold Tracking.clear
  rw [yields_modify_bind, yields_get_bind, if_neg (by simp [bare])]
  exact yields_pure.mpr ⟨rfl, rfl⟩

theorem Sound.finish : Tracking.finish.Yields track () track.removeAll := sound.clear.1

end

theorem Sound.eq_removeAll (sound : track.Sound) (ran : Tracking.clear.Yields track () after) :
    after = track.removeAll := ran.leaves_eq.symm.trans sound.clear.1.leaves_eq

section

variable (sound : track.Sound) {dest : Register} {owned : Bool} {n : Node}

include sound

theorem Sound.knows_noteDefs (regs : List Register) :
    (regs.foldl Tracking.noteDef track).Knows v dest owned ↔
      track.Knows v dest owned ∧ v ∉ regs ∧ dest ∉ regs := by
  constructor
  · rintro ⟨id, record, found, rfl, rfl, rfl⟩
    obtain ⟨found, apart⟩ := ((sound.noteDefs regs).2 id record).mp found
    exact ⟨⟨id, record, found, rfl, rfl, rfl⟩, apart⟩
  · rintro ⟨⟨id, record, found, rfl, rfl, rfl⟩, apart⟩
    exact ⟨id, record, ((sound.noteDefs regs).2 id record).mpr ⟨found, apart⟩, rfl, rfl, rfl⟩

theorem Sound.knows_noteDef (r : Register) :
    (track.noteDef r).Knows v dest owned ↔ track.Knows v dest owned ∧ v ≠ r ∧ dest ≠ r := by
  simpa using sound.knows_noteDefs [r]

/-! ### Learning of copies -/

/-- A read of a copy only moves its last use. -/
theorem Sound.noteUse (r : Register) (place : UInt32) : track.Tends [] (track.noteUse r place) ∧
      ∀ v dest owned, (track.noteUse r place).Knows v dest owned ↔ track.Knows v dest owned := by
  unfold Tracking.noteUse
  split
  · exact ⟨sound.tends_refl, fun _ _ _ => Iff.rfl⟩
  · next id held isHeld =>
    simp only
    have ch : ∀ one, (track.cache.records.modify id fun record =>
        { record with lastUse := max record.lastUse place }).get? one =
          (track.cache.records.get? one).map fun record =>
            if one = id then { record with lastUse := max record.lastUse place } else record := by
      intro one
      rw [get?_modify]
      cases track.cache.records.get? one <;> by_cases same : one = id <;> simp [same]
    refine ⟨⟨⟨sound.graph, sound.pool.modify id _, ?_, ?_, ?_,
      ⟨sound.tidy.once, sound.tidy.filled⟩, ?_⟩,
      sound.graph.alike_refl, fun _ _ => Iff.rfl, fun _ _ named => named, .of_find_eq fun _ => rfl⟩,
      fun v dest owned => ?_⟩
    · intro one record found
      rw [ch, Option.map_eq_some_iff] at found
      obtain ⟨pre, isBefore, rfl⟩ := found
      have marked := sound.marked one pre isBefore
      split <;> exact marked
    · intro n place mark isNode payload
      obtain ⟨pre, isBefore, atNode⟩ := sound.known n place mark isNode payload
      refine ⟨_, (ch mark).trans (congrArg (Option.map _) isBefore), ?_⟩
      split <;> exact atNode
    · intro v one
      refine (sound.listed v one).trans ?_
      simp only [ch, Option.map_eq_some_iff]
      constructor
      · rintro ⟨pre, isBefore, same⟩
        refine ⟨_, ⟨pre, isBefore, rfl⟩, ?_⟩
        split <;> exact same
      · rintro ⟨_, ⟨pre, isBefore, rfl⟩, same⟩
        refine ⟨pre, isBefore, ?_⟩
        split at same <;> exact same
    · intro one record found
      rw [ch, Option.map_eq_some_iff] at found
      obtain ⟨pre, isBefore, rfl⟩ := found
      have virt := sound.virtual one pre isBefore
      split <;> exact virt
    · unfold Knows
      simp only [ch, Option.map_eq_some_iff]
      constructor
      · rintro ⟨one, _, ⟨pre, isBefore, rfl⟩, rfl, rfl, rfl⟩
        refine ⟨one, pre, isBefore, ?_⟩
        split <;> exact ⟨rfl, rfl, rfl⟩
      · rintro ⟨one, pre, isBefore, rfl, rfl, rfl⟩
        refine ⟨one, _, ⟨pre, isBefore, rfl⟩, ?_⟩
        split <;> exact ⟨rfl, rfl, rfl⟩

theorem Sound.noteUses (regs : List Register) (place : UInt32) :
    track.Tends [] (regs.foldl (fun track r => track.noteUse r place) track) ∧
      ∀ v dest owned, (regs.foldl (fun track r => track.noteUse r place)
          track).Knows v dest owned ↔ track.Knows v dest owned := by
  induction regs generalizing track with
  | nil => exact ⟨sound.tends_refl, fun _ _ _ => Iff.rfl⟩
  | cons r rest ih =>
    obtain ⟨tends, same⟩ := sound.noteUse r place
    obtain ⟨tendsRest, same'⟩ := ih tends.sound
    exact ⟨tends.trans tendsRest, fun v dest owned => (same' v dest owned).trans
      (same v dest owned)⟩

/-- A copy is remembered at a node that carries nothing. -/
theorem Sound.remember (record : CopyRecord) (virt : record.dest.isVirtual = true)
    (named : track.graph.find record.dest = some record.node)
    (isNode : track.graph.node? record.node = some n) (bare : n.payload = .empty) :
    track.Tends [] (track.remember record).2 ∧ ∀ v dest owned,
      (track.remember record).2.Knows v dest owned ↔ track.Knows v dest owned ∨
        (v = record.value ∧ dest = record.dest ∧ owned = record.owned) := by
  set id := (track.cache.records.insert record).1 with isId
  have vacant : track.cache.records.get? id = none := by
    rw [isId, insert_fst]
    exact sound.pool.get?_nextKey
  have unlisted : ∀ v, id ∉ track.cache.classOf v := by
    intro v listed
    obtain ⟨_, found, _⟩ := (sound.listed v id).mp listed
    rw [vacant] at found
    cases found
  have gained : ∀ other, (track.remember record).2.cache.records.get? other =
      if other = id then some record else track.cache.records.get? other := by
    intro other
    exact (sound.pool.get?_insert record other).trans (by rw [isId, insert_fst])
  have recast := recast_update sound.graph.pool record.node fun n =>
    { n with payload := .copy id }
  have elsewhere : ∀ other pre, track.cache.records.get? other = some pre →
    pre.node ≠ record.node := by
    intro other pre isBefore same
    obtain ⟨_, marked, isMarked, payload⟩ := sound.marked other pre isBefore
    rw [same] at isMarked
    cases isNode.symm.trans isMarked
    cases bare.symm.trans payload
  have arrays : track.graph.SameArrays (track.remember record).2.graph := by
    refine sameArrays_update sound.graph.pool record.node _ fun another bnd isOther => ?_
    cases isNode.symm.trans isOther
    simp [bare]
  have alike := alike_remember sound.graph record
  refine ⟨⟨⟨alike.sound, sound.pool.insert record, ?_, ?_, ?_, ?_, ?_⟩, alike, arrays,
    fun r _ named => (recast.find r).trans named, .of_find_eq recast.find⟩, ?_⟩
  · intro other copy found
    rw [gained] at found
    split at found
    · next same =>
      cases found
      refine ⟨(recast.find _).trans named, { n with payload := .copy id }, ?_, by rw [same]⟩
      exact (recast.some isNode).trans (congrArg some (if_pos rfl))
    · obtain ⟨named', marked, isMarked, payload⟩ := sound.marked other copy found
      refine ⟨(recast.find _).trans named', marked, ?_, payload⟩
      exact (recast.some isMarked).trans (congrArg some (if_neg (elsewhere other copy found)))
  · intro node marked mark isMarked payload
    obtain ⟨pre, isBefore, rfl⟩ := recast.exists_of_some isMarked
    by_cases same : node = record.node
    · rw [if_pos same] at payload
      cases payload
      exact ⟨record, (gained id).trans (if_pos rfl), same.symm⟩
    · rw [if_neg same] at payload
      obtain ⟨copy, isCopy, atPlace⟩ := sound.known node pre mark isBefore payload
      refine ⟨copy, (gained mark).trans (Eq.trans (if_neg ?_) isCopy), atPlace⟩
      rintro rfl
      rw [vacant] at isCopy
      cases isCopy
  · intro v other
    have classes : (track.remember record).2.cache.classOf v =
        if v = record.value then track.cache.classOf record.value ++ [id]
        else track.cache.classOf v := CopyCache.classOf_enlist _ _ _ _
    rw [gained, classes]
    by_cases same : other = id
    · rw [if_pos same]
      by_cases isValue : v = record.value
      · simp [isValue, same]
      · simpa [same, isValue, Ne.symm isValue] using unlisted v
    · rw [if_neg same, ← sound.listed v other]
      by_cases isValue : v = record.value
      · simp [isValue, same]
      · simp [isValue]
  · have tidy : CopyCache.Tidy { track.cache with
        records := (track.cache.records.insert record).2 } := ⟨sound.tidy.once, sound.tidy.filled⟩
    exact tidy.enlist (unlisted record.value)
  · intro other copy found
    rw [gained] at found
    split at found
    · cases found
      exact virt
    · exact sound.virtual other copy found
  · intro v dest owned
    unfold Knows
    simp only [gained]
    constructor
    · rintro ⟨other, copy, found, rfl, rfl, rfl⟩
      split at found
      · cases found
        exact .inr ⟨rfl, rfl, rfl⟩
      · exact .inl ⟨other, copy, found, rfl, rfl, rfl⟩
    · rintro (⟨other, copy, found, rfl, rfl, rfl⟩ | ⟨rfl, rfl, rfl⟩)
      · refine ⟨other, copy, Eq.trans (if_neg ?_) found, rfl, rfl, rfl⟩
        rintro rfl
        rw [vacant] at found
        cases found
      · exact ⟨id, record, if_pos rfl, rfl, rfl, rfl⟩

/-- Taking the mark off a node leaves it without one. -/
theorem Sound.remove_mark {node : NodeId} (isNode : track.graph.node? node = some n)
    (payload : n.payload = .copy id) :
    (track.remove id).graph.node? node = some { n with payload := .empty } := by
  obtain ⟨record, found, rfl⟩ := sound.known node n id isNode payload
  have recast := recast_update sound.graph.pool record.node fun n =>
    if n.payload = .copy id then { n with payload := .empty } else n
  rw [remove_of_some found]
  refine (recast.some isNode).trans (congrArg some ?_)
  rw [if_pos rfl, if_pos payload]

theorem Sound.tends_ensure (r : Register) :
    track.Tends [r] { track with graph := (track.graph.ensure r).graph } := by
  have equips := sound.graph.equipped_ensure r
  have carries := equips.grows.carries sound.graph.toShaped equips.sound.toShaped
  exact ⟨sound.grows equips.sound equips.grows, sound.graph.alike_ensure r, carries.sameArrays,
    carries.find, equips.introduces⟩

end

/-- What recording a copy comes to. -/
structure Records (track : Tracking) (value dest : Register) (owned : Bool) (after : Tracking) :
    Prop where
  tends : track.Tends [dest] after
  knows : (∀ value' dest' owned', after.Knows value' dest' owned' ↔
      track.Knows value' dest' owned') ∧
        (value ≠ dest → dest.isVirtual = true → ¬ track.graph.Scalar dest) ∨
    ∀ value' dest' owned', after.Knows value' dest' owned' ↔
      track.Knows value' dest' owned' ∧ dest' ≠ dest ∨
        value' = value ∧ dest' = dest ∧ owned' = owned

section

variable {v dest : Register} {origin : Option InstructionId} {place : UInt32} {owned : Bool}
  {result : Option CopyId}

/-- Whatever copy is to be remembered, the computation ends. -/
theorem Sound.exists_recordCopy (sound : track.Sound) (v dest : Register)
    (origin : Option InstructionId) (place : UInt32) (owned : Bool) :
    ∃ result after, (recordCopy v dest origin place owned).Yields track result after ∧
      track.Records v dest owned after := by
  unfold Tracking.recordCopy
  split
  · next pointless =>
    refine ⟨none, track, yields_pure.mpr ⟨rfl, rfl⟩, ?_, .inl ⟨fun _ _ _ => Iff.rfl, ?_⟩⟩
    · exact ⟨sound, sound.graph.alike_refl, fun _ _ => Iff.rfl, fun _ _ => id, fun _ => .inl⟩
    · intro apart virt
      simp [apart, virt] at pointless
  · next allowed =>
    have virt : dest.isVirtual = true := by
      cases isVirtual : dest.isVirtual
      · exact absurd (by simp [isVirtual]) allowed
      · rfl
    let ready : Tracking := { track with graph := (track.graph.ensure dest).graph }
    have tends : track.Tends [dest] ready := sound.tends_ensure dest
    have named : ready.graph.find dest = some (track.graph.ensure dest).result :=
      sound.graph.find_ensure dest
    obtain ⟨n, isNode, _⟩ := tends.sound.graph.live_of_find named
    have creates : (onGraph (create dest)).Yields track (track.graph.ensure dest).result ready :=
      yields_within.mpr ⟨_, create_yields.mpr ⟨virt, rfl, rfl⟩, rfl⟩
    let record : CopyRecord := ⟨v, dest, (track.graph.ensure dest).result, origin, place, owned⟩
    -- a copy is in this register if it is the one that the node is marked with
    have only : ∀ {id copy}, ready.cache.records.get? id = some copy →
        (copy.dest = dest ↔ n.payload = .copy id) := by
      intro id copy isCopy
      obtain ⟨named', n', isNode', payload⟩ := tends.sound.marked id copy isCopy
      constructor
      · intro isDest
        rw [isDest] at named'
        rw [← Option.some_inj.mp (named.symm.trans named')] at isNode'
        cases isNode.symm.trans isNode'
        exact payload
      · intro payload
        obtain ⟨other, isOther, here⟩ := tends.sound.known _ _ _ isNode payload
        cases isCopy.symm.trans isOther
        rw [here] at named'
        exact tends.sound.graph.find_inj named' named
    have reads := node_eq_ok.mpr isNode
    cases payload : n.payload with
    | arrayMember bnd =>
      refine ⟨none, ready, yields_bind.mpr ⟨_, _, creates, ?_⟩, tends,
        .inl ⟨fun _ _ _ => Iff.rfl, fun _ _ scalar => ?_⟩⟩
      · rw [yields_get_bind, yields_lift_bind]
        refine ⟨n, reads, ?_⟩
        rw [payload]
        exact yields_pure.mpr ⟨rfl, rfl⟩
      · exact tends.scalar sound scalar _ _ named ⟨n, isNode, payload⟩
    | empty =>
      obtain ⟨remembers, knows⟩ := tends.sound.remember record virt named isNode payload
      refine ⟨some (ready.remember record).1, _, yields_bind.mpr ⟨_, _, creates, ?_⟩,
        tends.trans remembers, .inr fun v' dest' owned' => ?_⟩
      · rw [yields_get_bind, yields_lift_bind]
        refine ⟨n, reads, ?_⟩
        rw [payload]
        exact ⟨rfl, rfl⟩
      · refine (knows v' dest' owned').trans (or_congr_left (and_iff_left_of_imp ?_).symm)
        rintro ⟨id, copy, isCopy, _, rfl, _⟩ same
        cases payload.symm.trans ((only isCopy).mp same)
    | copy old =>
      obtain ⟨removes, gone⟩ := tends.sound.remove old
      obtain ⟨remembers, knows⟩ := removes.sound.remember record virt
        (removes.find _ _ named) (tends.sound.remove_mark isNode payload) rfl
      refine ⟨some ((ready.remove old).remember record).1, _,
        yields_bind.mpr ⟨_, _, creates, ?_⟩, (tends.trans removes).trans remembers,
        .inr fun v' dest' owned' => (knows v' dest' owned').trans (or_congr_left ?_)⟩
      · rw [yields_get_bind, yields_lift_bind]
        refine ⟨n, reads, ?_⟩
        rw [payload, yields_modify_bind]
        exact ⟨rfl, rfl⟩
      · constructor
        · rintro ⟨id, copy, isCopy, facts⟩
          rw [gone] at isCopy
          split at isCopy
          · cases isCopy
          · next ne =>
            refine ⟨⟨id, copy, isCopy, facts⟩, fun same => ne ?_⟩
            cases payload.symm.trans ((only isCopy).mp (facts.2.1.trans same))
            rfl
        · rintro ⟨⟨id, copy, isCopy, facts⟩, apart⟩
          refine ⟨id, copy, (gone id).trans (Eq.trans (if_neg ?_) isCopy), facts⟩
          rintro rfl
          exact apart (facts.2.1.symm.trans ((only isCopy).mpr payload))

theorem Sound.recordCopy (sound : track.Sound)
    (ran : (recordCopy v dest origin place owned).Yields track result after) :
    track.Records v dest owned after := by
  obtain ⟨_, _, again, records⟩ := sound.exists_recordCopy v dest origin place owned
  obtain rfl := ran.leaves_eq.symm.trans again.leaves_eq
  exact records

section

variable (records : track.Records v dest owned after)

include records

/-- What is known afterwards was known before, or it is the copy that was recorded. -/
theorem Records.of_knows {v' dest' : Register} {owned' : Bool}
    (known : after.Knows v' dest' owned') :
    track.Knows v' dest' owned' ∨ v' = v ∧ dest' = dest ∧ owned' = owned := by
  rcases records.knows with ⟨same, _⟩ | knows
  · exact .inl ((same v' dest' owned').mp known)
  · exact ((knows v' dest' owned').mp known).imp_left And.left

/-- Recording a copy takes nothing from other registers. -/
theorem Records.keeps {v' dest' : Register} {owned' : Bool} (known : track.Knows v' dest' owned')
    (apart : dest' ≠ dest) : after.Knows v' dest' owned' := by
  rcases records.knows with ⟨same, _⟩ | knows
  · exact (same v' dest' owned').mpr known
  · exact (knows v' dest' owned').mpr (.inl ⟨known, apart⟩)

theorem Records.learned (apart : v ≠ dest) (virt : dest.isVirtual = true)
    (scalar : track.graph.Scalar dest) : after.Knows v dest owned := by
  rcases records.knows with ⟨_, no⟩ | knows
  · exact absurd scalar (no apart virt)
  · exact (knows v dest owned).mpr (.inr ⟨rfl, rfl, rfl⟩)

end

end

end Tracking

end RegisterChains

/-
This file proves that a table whose keys are handed out again is a finite map. Beside the table
stands a plain list of the entries in use, each with the key that it was given, and no entry of
this list ever gives way to a new one. Whatever is called, the list and the table have the same
entries, and no key is in the list twice: a key is handed out again only after its entry is gone.
-/

import RegisterChains.Proofs.Stores

namespace RegisterChains

open List

namespace Pool

/-- A call that changes a table. -/
inductive Change (kind : KeyKind) (α : Type) where
  | insert (entry : α)
  | remove (key : Key kind)
  | modify (key : Key kind) (change : α → α)
  | clear

/-- A table, and the entries that were put in and not taken out since. -/
structure History (kind : KeyKind) (α : Type) where
  pool : Pool kind α
  inUse : List (Key kind × α)

variable {kind : KeyKind} {α : Type} {pool : Pool kind α} {k : Key kind}

/-- A call fails only if the kind has no key left for a new entry. -/
def History.perform (past : History kind α) : Change kind α → Except Breach (History kind α)
  | .insert entry => do
    let (key, pool) ← past.pool.insertChecked entry
    return ⟨pool, (key, entry) :: past.inUse⟩
  | .remove key => return ⟨(past.pool.remove key).2, past.inUse.filter (·.1 ≠ key)⟩
  | .modify key change =>
    return ⟨past.pool.modify key change,
      past.inUse.map fun (k, entry) => (k, if k = key then change entry else entry)⟩
  | .clear => return ⟨past.pool.clear, []⟩

def History.empty : History kind α := ⟨.empty, []⟩

/-- What makes a table a finite map with these entries. -/
structure IsMap (pool : Pool kind α) (entries : List (Key kind × α)) : Prop where
  freeOnce : pool.free.Nodup
  free : ∀ key, key ∈ pool.free ↔ pool.slots[key.index]? = some none
  size : pool.size = pool.slots.countP Option.isSome
  accepts : ∀ entry, pool.size < kind.capacity → ∃ inserted, pool.insertChecked entry = .ok inserted
  inserts : ∀ entry key changed, pool.insertChecked entry = .ok (key, changed) →
    pool.get? key = none ∧
      ∀ other, changed.get? other = if other = key then some entry else pool.get? other
  removes : ∀ key, (pool.remove key).1 = pool.get? key ∧
    ∀ other, (pool.remove key).2.get? other = if other = key then none else pool.get? other
  keeps : ∀ key, pool.get? key = none → pool.remove key = (none, pool)
  modifies : ∀ key change other, (pool.modify key change).get? other =
    if other = key then (pool.get? other).map change else pool.get? other
  lists : ∀ key entry, (key, entry) ∈ pool.toList ↔ pool.get? key = some entry
  ordered : pool.toList.Pairwise fun a b => a.1.index < b.1.index
  inUse : pool.toList ~ entries
  unshared : (entries.map Prod.fst).Nodup

/-! ### Answers of a sound table -/

theorem insertChecked_eq_ok {entry : α} {inserted : Key kind × Pool kind α} :
    pool.insertChecked entry = .ok inserted ↔
      pool.nextKey.index < kind.capacity ∧ inserted = pool.insert entry := by
  unfold insertChecked
  rw [except_bind_eq_ok]
  constructor
  · rintro ⟨_, k, rest⟩
    exact ⟨(Key.ofIndex_eq_ok.mp k).1, (except_pure_eq_ok.mp rest).symm⟩
  · rintro ⟨lt, rfl⟩
    exact ⟨_, Key.ofIndex_eq_ok.mpr ⟨lt, rfl⟩, rfl⟩

/-- A new entry gets a key that has no entry, and changes no other entry. -/
theorem Sound.get?_of_insertChecked (sound : pool.Sound) {entry : α} {changed : Pool kind α}
    (inserts : pool.insertChecked entry = .ok (k, changed)) : pool.get? k = none ∧
      ∀ other, changed.get? other = if other = k then some entry else pool.get? other := by
  have same := (insertChecked_eq_ok.mp inserts).2
  have isKey : k = pool.nextKey := (congrArg Prod.fst same).trans (insert_fst pool entry)
  have isChanged : changed = (pool.insert entry).2 := congrArg Prod.snd same
  rw [isKey, isChanged]
  exact ⟨sound.get?_nextKey, sound.get?_insert entry⟩

/-- As long as not every key is in use, the next key is one of the kind. -/
theorem Sound.index_nextKey_lt (sound : pool.Sound) (fits : pool.slots.size ≤ kind.capacity)
    (spare : pool.size < kind.capacity) : pool.nextKey.index < kind.capacity := by
  unfold nextKey
  cases listed : pool.free with
  | nil =>
    -- Without a free key every slot is counted.
    have full : pool.slots.countP Option.isSome = pool.slots.size := by
      refine Array.countP_eq_size.mpr fun slot mem => Option.isSome_iff_ne_none.mpr ?_
      rintro rfl
      obtain ⟨i, found⟩ := Array.mem_iff_getElem?.mp mem
      have free := (sound.free ⟨i⟩).mpr found
      rw [listed] at free
      cases free
    rwa [sound.counted, full] at spare
  | cons k rest =>
    have empty := (sound.free k).mp (by rw [listed]; exact mem_cons_self)
    exact Nat.lt_of_lt_of_le (Array.getElem?_eq_some_iff.mp empty).1 fits

theorem remove_of_none (missing : pool.get? k = none) : pool.remove k = (none, pool) := by
  rw [remove, missing]

theorem toList_ordered (pool : Pool kind α) :
    pool.toList.Pairwise fun a b => a.1.index < b.1.index := by
  have rising : pool.slots.toList.zipIdx.Pairwise fun a b => a.2 < b.2 := by
    rw [← pairwise_map, zipIdx_map_snd]
    exact pairwise_lt_range'
  refine rising.filterMap _ fun a b lt x isX y isY => ?_
  obtain ⟨_, _, rfl⟩ := Option.map_eq_some_iff.mp isX
  obtain ⟨_, _, rfl⟩ := Option.map_eq_some_iff.mp isY
  exact lt

/-! ### The entries in use -/

namespace History

variable {past next : History kind α} {change : Change kind α}

/-- The table is sound and within its kind, and the entries in use are its entries, no two of them
under one key. -/
structure Agrees (past : History kind α) : Prop where
  sound : past.pool.Sound
  fits : past.pool.slots.size ≤ kind.capacity
  unshared : (past.inUse.map Prod.fst).Nodup
  entries : ∀ key entry, (key, entry) ∈ past.inUse ↔ past.pool.get? key = some entry

theorem agrees_empty : (empty : History kind α).Agrees :=
  ⟨sound_empty, Nat.zero_le _, nodup_nil, fun k entry => by simp [empty]⟩

namespace Agrees

section

variable (agrees : past.Agrees)

include agrees

theorem insert (lt : past.pool.nextKey.index < kind.capacity) (entry : α) :
    Agrees ⟨(past.pool.insert entry).2, ((past.pool.insert entry).1, entry) :: past.inUse⟩ where
  sound := agrees.sound.insert entry
  fits := by
    cases listed : past.pool.free with
    | nil =>
      rw [nextKey, listed] at lt
      rw [insert_of_nil listed]
      simpa using Nat.succ_le_of_lt lt
    | cons k rest => simpa [insert_of_cons listed] using agrees.fits
  unshared := by
    -- The key that is handed out has no entry, so no entry in use has it.
    rw [map_cons, nodup_cons]
    refine ⟨fun mem => ?_, agrees.unshared⟩
    obtain ⟨⟨k, old⟩, used, rfl⟩ := mem_map.mp mem
    have found := (agrees.entries _ _).mp used
    rw [insert_fst, agrees.sound.get?_nextKey] at found
    cases found
  entries k v := by
    have none := agrees.sound.get?_nextKey
    rw [agrees.sound.get?_insert, insert_fst, mem_cons, agrees.entries, Prod.mk.injEq]
    by_cases same : k = past.pool.nextKey
    · simp [same, none, eq_comm]
    · simp [same]

theorem remove (k : Key kind) : Agrees ⟨(past.pool.remove k).2, past.inUse.filter (·.1 ≠ k)⟩ where
  sound := agrees.sound.remove k
  fits := by
    unfold Pool.remove
    split
    · simpa using agrees.fits
    · exact agrees.fits
  unshared := agrees.unshared.sublist (filter_sublist.map _)
  entries one v := by
    rw [get?_remove, mem_filter, agrees.entries]
    by_cases same : one = k <;> simp [same]

theorem modify (k : Key kind) (f : α → α) :
    Agrees ⟨past.pool.modify k f,
      past.inUse.map fun (one, entry) => (one, if one = k then f entry else entry)⟩ where
  sound := agrees.sound.modify k f
  fits := by simpa [Pool.modify] using agrees.fits
  unshared := by simpa [Function.comp_def] using agrees.unshared
  entries one v := by
    rw [get?_modify, mem_map]
    constructor
    · rintro ⟨⟨one, old⟩, used, ⟨⟩⟩
      rw [(agrees.entries _ _).mp used]
      split <;> rfl
    · intro found
      by_cases same : one = k
      · rw [if_pos same] at found
        obtain ⟨old, read, rfl⟩ := Option.map_eq_some_iff.mp found
        exact ⟨(one, old), (agrees.entries _ _).mpr read, by simp [same]⟩
      · rw [if_neg same] at found
        exact ⟨(one, v), (agrees.entries _ _).mpr found, by simp [same]⟩

theorem perform (performs : past.perform change = .ok next) : next.Agrees := by
  cases change with
  | insert entry =>
    obtain ⟨_, inserts, rest⟩ := except_bind_eq_ok.mp performs
    obtain ⟨lt, rfl⟩ := insertChecked_eq_ok.mp inserts
    cases rest
    exact agrees.insert lt entry
  | remove k =>
    cases performs
    exact agrees.remove k
  | modify k f =>
    cases performs
    exact agrees.modify k f
  | clear =>
    cases performs
    exact agrees_empty

theorem performAll {changes : List (Change kind α)}
    (performs : changes.foldlM History.perform past = .ok next) : next.Agrees := by
  induction changes generalizing past with
  | nil =>
    cases performs
    exact agrees
  | cons change rest ih =>
    obtain ⟨mid, one, later⟩ := except_bind_eq_ok.mp (foldlM_cons.symm.trans performs)
    exact ih (agrees.perform one) later

end

end Agrees

end History

/-- Whatever calls are made on a new table, as long as the kind has keys for the entries, it is a
finite map: the free keys are the empty slots, each listed once; a new entry gets a key that has no
entry, and changes no other entry; to take out what is not there does nothing; and the entries are
listed by rising keys. They are the entries in use, and no two of these have the same key. -/
theorem isMap_of_changes {changes : List (Change kind α)} {past : History kind α}
    (performs : changes.foldlM History.perform .empty = .ok past) : past.pool.IsMap past.inUse := by
  have agrees := History.agrees_empty.performAll performs
  have ordered := toList_ordered past.pool
  have once : past.pool.toList.Nodup := ordered.imp fun lt same => by
    cases same
    exact Nat.lt_irrefl _ lt
  exact {
    freeOnce := agrees.sound.distinct
    free := agrees.sound.free
    size := agrees.sound.counted
    accepts := fun entry spare => ⟨_, insertChecked_eq_ok.mpr
      ⟨agrees.sound.index_nextKey_lt agrees.fits spare, rfl⟩⟩
    inserts := fun entry key changed => agrees.sound.get?_of_insertChecked
    removes := fun key => ⟨remove_fst past.pool key, get?_remove past.pool key⟩
    keeps := fun key => remove_of_none
    modifies := fun key change other => get?_modify past.pool key other change
    lists := fun key entry => mem_toList
    ordered := ordered
    inUse := (perm_ext_iff_of_nodup once agrees.unshared.of_map).mpr fun (key, entry) =>
      mem_toList.trans (agrees.entries key entry).symm
    unshared := agrees.unshared }

/-- The second of three keys is taken out twice and given to the next entry, an unknown key is taken
out, and the first entry is changed. -/
def reusing : List (Change .node Nat) :=
  [.insert 1, .insert 2, .insert 3, .remove ⟨1⟩, .remove ⟨1⟩, .remove ⟨7⟩, .insert 4,
    .modify ⟨0⟩ (· + 10)]

theorem isMap_of_reusing : ∃ past, reusing.foldlM History.perform .empty = .ok past ∧
    past.pool.toList = [(⟨0⟩, 11), (⟨1⟩, 4), (⟨2⟩, 3)] ∧ past.pool.IsMap past.inUse := by
  have performs : reusing.foldlM History.perform .empty = .ok
      ⟨⟨#[some 11, some 4, some 3], [], 3⟩, [(⟨1⟩, 4), (⟨2⟩, 3), (⟨0⟩, 11)]⟩ := rfl
  exact ⟨_, performs, rfl, isMap_of_changes performs⟩

end Pool

end RegisterChains

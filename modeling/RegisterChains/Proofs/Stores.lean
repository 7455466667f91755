/-
This file says what is found in a table after each change to it, one rule for the key that
was changed and for all others. Tables whose keys are handed out again have an invariant: the
free keys are exactly the empty slots, each listed once. From it follows that a new entry
never takes the place of another one, and that distinct keys with an entry are no more than
there are entries.
-/

import RegisterChains.Proofs.Computation
import RegisterChains.Store.Assoc
import RegisterChains.Store.Pool
import RegisterChains.Store.SideTable
import Mathlib.Data.List.Nodup
import Mathlib.Data.List.Count

namespace RegisterChains

open List

namespace Key

variable {kind : KeyKind} {a b : Key kind}

theorem ext_index (same : a.index = b.index) : a = b := by
  cases a
  cases b
  exact congrArg Key.mk same

theorem index_eq_iff : a.index = b.index ↔ b = a :=
  ⟨fun same => ext_index same.symm, fun same => congrArg index same.symm⟩

theorem index_ne (distinct : a ≠ b) : a.index ≠ b.index := fun same => distinct (ext_index same)

/-- What a slot holds after another entry is put into one of the slots. -/
theorem join_setIfInBounds {α : Type} {slots : Array (Option α)} {new : Option α} (a b : Key kind)
    (room : a.index < slots.size ∨ new = none) :
    ((slots.setIfInBounds a.index new)[b.index]?).join =
      if b = a then new else (slots[b.index]?).join := by
  simp only [Array.getElem?_setIfInBounds, index_eq_iff]
  by_cases same : b = a
  · rw [if_pos same, if_pos same]
    rcases room with inside | rfl
    · rw [if_pos inside]
      rfl
    · split <;> rfl
  · rw [if_neg same, if_neg same]

/-- What a slot holds after one of the entries is changed. -/
theorem join_modify {α : Type} (slots : Array (Option α)) (a b : Key kind) (change : α → α) :
    ((slots.modify a.index (Option.map change))[b.index]?).join =
      if b = a then (slots[b.index]?).join.map change else (slots[b.index]?).join := by
  simp only [Array.getElem?_modify, index_eq_iff]
  split
  · cases slots[b.index]? with
    | none => rfl
    | some slot => cases slot <;> rfl
  · rfl

/-- Distinct keys are no more than their indices. -/
theorem length_le {keys : List (Key kind)} {size : Nat} (distinct : keys.Nodup)
    (bounded : ∀ k ∈ keys, k.index < size) : keys.length ≤ size := by
  have distinct' : (keys.map Key.index).Nodup := distinct.map fun _ _ same => ext_index same
  have shorter : (keys.map Key.index).length ≤ (List.range size).length := by
    refine (subperm_of_subset distinct' fun i mem => ?_).length_le
    obtain ⟨k, isMem, rfl⟩ := mem_map.mp mem
    exact mem_range.mpr (bounded k isMem)
  rwa [length_map, length_range] at shorter

theorem ofIndex_eq_ok {i : Nat} {k : Key kind} :
    ofIndex kind i = .ok k ↔ i < kind.capacity ∧ k = ⟨i⟩ := by
  unfold ofIndex ofIndex?
  split
  · next key equal =>
    split at equal
    · next inRange =>
      cases equal
      simp only [Except.ok.injEq, inRange, true_and]
      exact eq_comm
    · cases equal
  · next equal =>
    split at equal
    · cases equal
    · next outOfRange => simp [outOfRange]

end Key

/-! ### Finite maps -/

namespace Assoc

variable {κ α : Type} [DecidableEq κ] {map : Assoc κ α} {k other : κ} {pair : κ × α} {v : α}

@[simp] theorem get?_empty (k : κ) : (empty : Assoc κ α).get? k = none := rfl

theorem mem_of_get? (found : map.get? k = some v) : (k, v) ∈ map.pairs := by
  unfold get? at found
  obtain ⟨pair, isFound, rfl⟩ := Option.map_eq_some_iff.mp found
  have named : pair.1 = k := by simpa using find?_some isFound
  rw [← named]
  exact mem_of_find?_eq_some isFound

theorem get?_erase_self (map : Assoc κ α) (k : κ) : (map.erase k).get? k = none := by
  unfold get? erase
  rw [Option.map_eq_none_iff, find?_eq_none]
  intro pair mem
  simpa using (mem_filter.mp mem).2

theorem get?_erase_of_ne (map : Assoc κ α) (distinct : other ≠ k) :
    (map.erase k).get? other = map.get? other := by
  unfold get? erase
  induction map.pairs with
  | nil => rfl
  | cons pair rest ih =>
    by_cases erased : pair.1 = k
    · have passed : pair.1 ≠ other := fun same => distinct (same.symm.trans erased)
      rw [filter_cons_of_neg (by simp [erased]), find?_cons_of_neg (by simp [passed])]
      exact ih
    · rw [filter_cons_of_pos (by simp [erased])]
      by_cases hit : pair.1 = other
      · rw [find?_cons_of_pos (by simp [hit]), find?_cons_of_pos (by simp [hit])]
      · rw [find?_cons_of_neg (by simp [hit]), find?_cons_of_neg (by simp [hit])]
        exact ih

@[simp] theorem get?_insert_self (map : Assoc κ α) (k : κ) (v : α) :
    (map.insert k v).get? k = some v := by
  simp [get?, insert]

theorem get?_insert_of_ne (map : Assoc κ α) (v : α) (distinct : other ≠ k) :
    (map.insert k v).get? other = map.get? other := by
  rw [← get?_erase_of_ne map distinct]
  unfold insert get?
  rw [find?_cons_of_neg (by simpa using Ne.symm distinct)]

theorem get?_insert (map : Assoc κ α) (k other : κ) (v : α) :
    (map.insert k v).get? other = if other = k then some v else map.get? other := by
  split
  · next same => rw [same, get?_insert_self]
  · next distinct => exact get?_insert_of_ne map v distinct

theorem get?_erase (map : Assoc κ α) (k other : κ) :
    (map.erase k).get? other = if other = k then none else map.get? other := by
  split
  · next same => rw [same, get?_erase_self]
  · next distinct => exact get?_erase_of_ne map distinct

theorem mem_pairs_insert (mem : pair ∈ (map.insert k v).pairs) :
    pair = (k, v) ∨ pair ∈ map.pairs := by
  rcases mem_cons.mp mem with same | kept
  · exact .inl same
  · exact .inr (mem_filter.mp kept).1

theorem isEmpty_of_get? (missing : ∀ k, map.get? k = none) : map.isEmpty = true := by
  obtain ⟨pairs⟩ := map
  cases pairs with
  | nil => rfl
  | cons pair rest =>
    have here := missing pair.1
    simp [get?] at here

omit [DecidableEq κ] in
theorem mem_pairs_filter {keep : κ → α → Bool} :
    pair ∈ (map.filter keep).pairs ↔ pair ∈ map.pairs ∧ keep pair.1 pair.2 = true :=
  mem_filter

end Assoc

/-! ### Tables that only grow -/

namespace Arena

variable {kind : KeyKind} {α : Type} {arena : Arena kind α} {k : Key kind}

theorem get_eq_ok {entry : α} : arena.get k = .ok entry ↔ arena.get? k = some entry := by
  unfold get
  cases arena.get? k with
  | none => simp
  | some value => simp

theorem get?_eq_none_iff : arena.get? k = none ↔ arena.size ≤ k.index := by
  simp [get?, size]

theorem index_lt_of_get? {entry : α} (found : arena.get? k = some entry) :
    k.index < arena.size := by
  by_contra outside
  rw [get?_eq_none_iff.mpr (Nat.le_of_not_lt outside)] at found
  cases found

@[simp] theorem size_set (arena : Arena kind α) (k : Key kind) (entry : α) :
    (arena.set k entry).size = arena.size := Array.size_setIfInBounds

theorem get?_set (arena : Arena kind α) (k other : Key kind) (entry : α) :
    (arena.set k entry).get? other =
      if other = k then (arena.get? other).map fun _ => entry else arena.get? other := by
  unfold set get?
  rw [Array.getElem?_setIfInBounds]
  by_cases same : other = k
  · subst same
    by_cases lt : other.index < arena.entries.size
    · simp [lt]
    · simp [lt]
  · rw [if_neg same, if_neg fun i => same (Key.ext_index i.symm)]

theorem get?_modify (arena : Arena kind α) (k other : Key kind) (change : α → α) :
    (arena.modify k change).get? other =
      if other = k then (arena.get? other).map change else arena.get? other := by
  simp only [modify, get?, Array.getElem?_modify, Key.index_eq_iff]

theorem mem_toList {entry : α} : (k, entry) ∈ arena.toList ↔ arena.get? k = some entry := by
  unfold toList values get?
  simp only [mem_map, Prod.exists, Prod.mk.injEq, mk_mem_zipIdx_iff_getElem?, Array.getElem?_toList]
  constructor
  · rintro ⟨value, i, isFound, rfl, rfl⟩
    exact isFound
  · intro isFound
    exact ⟨entry, k.index, isFound, rfl, rfl⟩

/-- No key is listed twice. -/
theorem nodup_toList (arena : Arena kind α) : (arena.toList.map Prod.fst).Nodup := by
  have keys : arena.toList.map Prod.fst = (arena.values.zipIdx.map Prod.snd).map Key.mk := by
    rw [toList, map_map, map_map]
    rfl
  rw [keys, zipIdx_map_snd]
  exact List.Nodup.map (fun _ _ same => Key.mk.inj same) nodup_range'


/-- A new entry gets the key behind all others, and no other entry changes. -/
theorem insert_eq_ok {grown : Arena kind α} {entry : α}
    (inserted : arena.insert entry = .ok (k, grown)) :
    k.index = arena.size ∧ grown.size = arena.size + 1 ∧
      ∀ one, grown.get? one = if one = k then some entry else arena.get? one := by
  unfold insert nextKey at inserted
  obtain ⟨fresh, named, rest⟩ := except_bind_eq_ok.mp inserted
  obtain ⟨_, rfl⟩ := Key.ofIndex_eq_ok.mp named
  cases rest
  refine ⟨rfl, by simp [size], fun one => ?_⟩
  unfold get?
  rw [Array.getElem?_push]
  by_cases same : one = ⟨arena.size⟩
  · have last : one.index = arena.entries.size := congrArg Key.index same
    rw [if_pos same, if_pos last]
  · have inner : one.index ≠ arena.entries.size := Key.index_ne same
    rw [if_neg same, if_neg inner]

end Arena

/-! ### Tables beside other tables -/

namespace SideTable

variable {kind : KeyKind} {α : Type} {table : SideTable kind α}

theorem get_eq_ok {k : Key kind} {entry : α} :
    table.get k = .ok entry ↔ table.get? k = some entry := by
  unfold get
  cases table.get? k with
  | none => simp
  | some value => simp

theorem not_contains {k : Key kind} : ¬ table.contains k = true ↔ table.get? k = none := by
  rw [Bool.not_eq_true, contains, Option.isSome_eq_false_iff, Option.isNone_iff_eq_none]

theorem index_lt_of_get? {k : Key kind} {entry : α} (found : table.get? k = some entry) :
    k.index < table.slots.size := by
  by_contra outside
  have missing : table.slots[k.index]? = none := Array.getElem?_eq_none (Nat.le_of_not_lt outside)
  rw [get?, missing] at found
  cases found

theorem get?_insert (table : SideTable kind α) (k other : Key kind) (entry : α) :
    (table.insert k entry).get? other = if other = k then some entry else table.get? other := by
  unfold insert get?
  have room : k.index < (table.grown k).size := by
    simp only [grown, Array.size_append, Array.size_replicate]
    omega
  rw [Key.join_setIfInBounds k other (.inl room)]
  refine if_congr Iff.rfl rfl ?_
  simp only [grown, Array.getElem?_append, Array.getElem?_replicate]
  split
  · rfl
  · next outside =>
    rw [Array.getElem?_eq_none (Nat.le_of_not_lt outside)]
    split <;> rfl

theorem get?_erase (table : SideTable kind α) (k other : Key kind) :
    (table.erase k).get? other = if other = k then none else table.get? other :=
  Key.join_setIfInBounds k other (.inr rfl)

theorem get?_modify (table : SideTable kind α) (k other : Key kind) (change : α → α) :
    (table.modify k change).get? other =
      if other = k then (table.get? other).map change else table.get? other :=
  Key.join_modify table.slots k other change

theorem update_eq_ok {ch : SideTable kind α} {k : Key kind} {change : α → α} :
    table.update k change = .ok ch ↔
      (∃ entry, table.get? k = some entry) ∧ ch = table.modify k change := by
  unfold update
  rw [except_bind_eq_ok]
  constructor
  · rintro ⟨entry, found, rest⟩
    exact ⟨⟨entry, get_eq_ok.mp found⟩, (except_pure_eq_ok.mp rest).symm⟩
  · rintro ⟨⟨entry, found⟩, rfl⟩
    exact ⟨entry, get_eq_ok.mpr found, rfl⟩

/-- Distinct keys with an entry are no more than there are slots. -/
theorem length_le {keys : List (Key kind)} (distinct : keys.Nodup)
    (live : ∀ k ∈ keys, ∃ entry, table.get? k = some entry) : keys.length ≤ table.slots.size := by
  refine Key.length_le distinct fun k mem => ?_
  obtain ⟨entry, found⟩ := live k mem
  exact index_lt_of_get? found

end SideTable

/-! ### Tables that hand out keys again -/

namespace Pool

variable {kind : KeyKind} {α : Type} {pool : Pool kind α} {k : Key kind}

/-- The free keys are the empty slots, each listed once, and the others are counted. -/
structure Sound (pool : Pool kind α) : Prop where
  distinct : pool.free.Nodup
  free : ∀ key, key ∈ pool.free ↔ pool.slots[key.index]? = some none
  counted : pool.size = pool.slots.countP Option.isSome

theorem get_eq_ok {entry : α} : pool.get k = .ok entry ↔ pool.get? k = some entry := by
  unfold get
  cases pool.get? k with
  | none => simp
  | some value => simp

theorem get?_eq_some {entry : α} :
    pool.get? k = some entry ↔ pool.slots[k.index]? = some (some entry) := by
  unfold get?
  cases pool.slots[k.index]? with
  | none => simp
  | some slot => simp

@[simp] theorem get?_empty (k : Key kind) : (empty : Pool kind α).get? k = none := rfl

theorem sound_empty : (empty : Pool kind α).Sound := ⟨nodup_nil, fun k => by simp [empty], rfl⟩

theorem get?_modify (pool : Pool kind α) (k other : Key kind) (change : α → α) :
    (pool.modify k change).get? other =
      if other = k then (pool.get? other).map change else pool.get? other :=
  Key.join_modify pool.slots k other change

/-- The next key has no entry yet. -/
theorem Sound.get?_nextKey (sound : pool.Sound) : pool.get? pool.nextKey = none := by
  unfold nextKey
  cases listed : pool.free with
  | nil => simp [get?]
  | cons k rest =>
    have empty := (sound.free k).mp (by rw [listed]; exact mem_cons_self)
    simp [get?, empty]

theorem insert_of_nil (listed : pool.free = []) (entry : α) : pool.insert entry =
      (⟨pool.slots.size⟩, ⟨pool.slots.push (some entry), [], pool.size + 1⟩) := by
  rw [insert, listed]

theorem insert_of_cons {rest : List (Key kind)} (listed : pool.free = k :: rest) (entry : α) :
    pool.insert entry =
      (k, ⟨pool.slots.setIfInBounds k.index (some entry), rest, pool.size + 1⟩) := by
  rw [insert, listed]

theorem insert_fst (pool : Pool kind α) (entry : α) : (pool.insert entry).1 = pool.nextKey := by
  unfold insert nextKey
  cases pool.free <;> rfl

/-- A new entry is found under the next key, and no other entry changes. -/
theorem Sound.get?_insert (sound : pool.Sound) (entry : α) (other : Key kind) :
    (pool.insert entry).2.get? other =
      if other = pool.nextKey then some entry else pool.get? other := by
  unfold insert nextKey
  cases listed : pool.free with
  | nil =>
    show (((pool.slots.push (some entry))[other.index]?).join : Option α) = _
    rw [Array.getElem?_push]
    by_cases same : other = ⟨pool.slots.size⟩
    · rw [if_pos same, if_pos (congrArg Key.index same)]
      rfl
    · rw [if_neg same, if_neg (Key.index_ne same)]
      rfl
  | cons k rest =>
    have empty := (sound.free k).mp (by rw [listed]; exact mem_cons_self)
    have lt : k.index < pool.slots.size := (Array.getElem?_eq_some_iff.mp empty).1
    exact Key.join_setIfInBounds k other (.inl lt)

/-- The entry of a removed key is gone, and no other entry changes. -/
theorem get?_remove (pool : Pool kind α) (k other : Key kind) :
    (pool.remove k).2.get? other = if other = k then none else pool.get? other := by
  unfold remove
  cases found : pool.get? k with
  | none =>
    by_cases same : other = k
    · rw [if_pos same, same]
      exact found
    · rw [if_neg same]
  | some entry => exact Key.join_setIfInBounds k other (.inr rfl)

theorem remove_fst (pool : Pool kind α) (k : Key kind) : (pool.remove k).1 = pool.get? k := by
  unfold remove
  cases pool.get? k <;> rfl

/-! ### The invariant after each change -/

theorem countP_setIfInBounds {slots : Array (Option α)} {i : Nat} {old new : Option α}
    (found : slots[i]? = some old) : (slots.setIfInBounds i new).countP Option.isSome =
      slots.countP Option.isSome - (if old.isSome then 1 else 0) + if new.isSome then 1 else 0 := by
  obtain ⟨lt, read⟩ := Array.getElem?_eq_some_iff.mp found
  rw [Array.setIfInBounds, dif_pos lt, Array.countP_set lt, read]

theorem Sound.insert (sound : pool.Sound) (entry : α) : (pool.insert entry).2.Sound := by
  cases listed : pool.free with
  | nil =>
    rw [insert_of_nil listed]
    refine ⟨nodup_nil, fun k => ?_, ?_⟩
    · have pre := sound.free k
      rw [listed] at pre
      rw [Array.getElem?_push]
      split
      · simp
      · exact pre
    · rw [Array.countP_push_of_pos rfl, sound.counted]
  | cons k rest =>
    rw [insert_of_cons listed]
    have listedOnce := sound.distinct
    rw [listed] at listedOnce
    have empty := (sound.free k).mp (by rw [listed]; exact mem_cons_self)
    refine ⟨(nodup_cons.mp listedOnce).2, fun one => ?_, ?_⟩
    · have pre := sound.free one
      rw [listed, mem_cons] at pre
      rw [Array.getElem?_setIfInBounds]
      by_cases same : one = k
      · subst same
        rw [if_pos rfl]
        have absent := (nodup_cons.mp listedOnce).1
        split <;> simp [absent]
      · rw [if_neg fun i => same (Key.ext_index i.symm), ← pre]
        simp [same]
    · show pool.size + 1 = _
      rw [countP_setIfInBounds empty, sound.counted]
      simp

theorem Sound.remove (sound : pool.Sound) (k : Key kind) : (pool.remove k).2.Sound := by
  unfold Pool.remove
  cases found : pool.get? k with
  | none => exact sound
  | some entry =>
    have full := get?_eq_some.mp found
    have notFree : k ∉ pool.free := by
      rw [sound.free, full]
      simp
    refine ⟨nodup_cons.mpr ⟨notFree, sound.distinct⟩, fun one => ?_, ?_⟩
    · rw [mem_cons, Array.getElem?_setIfInBounds, sound.free]
      by_cases same : one = k
      · subst same
        have lt := (Array.getElem?_eq_some_iff.mp full).1
        rw [if_pos rfl, if_pos lt]
        simp
      · rw [if_neg fun i => same (Key.ext_index i.symm)]
        simp [same]
    · show pool.size - 1 = _
      rw [countP_setIfInBounds full, sound.counted]
      simp

theorem Sound.modify (sound : pool.Sound) (k : Key kind) (change : α → α) :
    (pool.modify k change).Sound := by
  have slot : ∀ i : Nat, (pool.slots.modify k.index (Option.map change))[i]? =
      if k.index = i then pool.slots[i]?.map (Option.map change)
      else pool.slots[i]? := fun i => Array.getElem?_modify
  refine ⟨sound.distinct, fun one => ?_, ?_⟩
  · show one ∈ pool.free ↔ (pool.slots.modify k.index (Option.map change))[one.index]? = _
    rw [sound.free, slot]
    split
    · cases pool.slots[one.index]? with
      | none => simp
      | some entry => cases entry <;> simp
    · rfl
  · have flags : (pool.slots.modify k.index (Option.map change)).map Option.isSome =
        pool.slots.map Option.isSome := by
      refine Array.ext_getElem? fun i => ?_
      rw [Array.getElem?_map, Array.getElem?_map, slot]
      split
      · cases pool.slots[i]? with
        | none => rfl
        | some entry => cases entry <;> rfl
      · rfl
    have counts : ∀ slots : Array (Option α),
        slots.countP Option.isSome = (slots.map Option.isSome).countP id := fun slots => by
      rw [Array.countP_map, Function.id_comp]
    refine sound.counted.trans ?_
    rw [counts, ← flags, ← counts]
    rfl

/-! ### The listing -/

theorem mem_toList {entry : α} : (k, entry) ∈ pool.toList ↔ pool.get? k = some entry := by
  unfold toList
  rw [mem_filterMap, get?_eq_some]
  constructor
  · rintro ⟨⟨slot, i⟩, mem, listed⟩
    obtain ⟨value, read, same⟩ := Option.map_eq_some_iff.mp listed
    cases same
    have placed := mk_mem_zipIdx_iff_getElem?.mp mem
    rw [Array.getElem?_toList] at placed
    rw [placed]
    exact congrArg some read
  · intro full
    refine ⟨(some entry, k.index), mk_mem_zipIdx_iff_getElem?.mpr ?_, rfl⟩
    rw [Array.getElem?_toList]
    exact full

theorem mem_keys : k ∈ pool.keys ↔ ∃ entry, pool.get? k = some entry := by
  unfold keys
  rw [mem_map]
  constructor
  · rintro ⟨⟨listed, entry⟩, mem, rfl⟩
    exact ⟨entry, mem_toList.mp mem⟩
  · rintro ⟨entry, found⟩
    exact ⟨(k, entry), mem_toList.mpr found, rfl⟩

theorem length_filterMap_zipIdx (slots : List (Option α)) (start : Nat) :
    ((slots.zipIdx start).filterMap fun (slot, i) =>
      slot.map fun entry => ((⟨i⟩ : Key kind), entry)).length = slots.countP Option.isSome := by
  induction slots generalizing start with
  | nil => rfl
  | cons slot rest ih =>
    rw [zipIdx_cons]
    cases slot with
    | none =>
      simp only [filterMap_cons, Option.map_none]
      rw [ih]
      simp
    | some entry =>
      simp only [filterMap_cons, Option.map_some, length_cons]
      rw [ih]
      simp

theorem Sound.length_keys (sound : pool.Sound) : pool.keys.length = pool.size := by
  unfold keys toList
  rw [length_map, length_filterMap_zipIdx, sound.counted, Array.countP_toList]

/-- Distinct keys with an entry are no more than there are entries. -/
theorem Sound.length_le (sound : pool.Sound) {keys : List (Key kind)} (distinct : keys.Nodup)
    (live : ∀ k ∈ keys, ∃ entry, pool.get? k = some entry) : keys.length ≤ pool.size := by
  rw [← sound.length_keys]
  exact (subperm_of_subset distinct fun k mem =>
    mem_keys.mpr (live k mem)).length_le

end Pool

end RegisterChains

/-
This file compares judging a candidate with committing it. A candidate is judged as a whole,
but it is committed link by link, and each link is judged by what has been joined so far. The
two differ in one way only: what has been joined so far may not yet reach the pin that puts
the whole candidate in a roomier bank. So a candidate that fits can be committed exactly if
every beginning of it fits as well.
-/

import RegisterChains.Proofs.Chain.Committing
import RegisterChains.Proofs.Chain.Fitting

namespace RegisterChains

open Parity

namespace ChainGraph

open List

open Step

variable {g now after : ChainGraph} {regs pre post rest ms : List Register} {base parity : Parity}
  {count i : Nat} {first r second : Register} {fit : Fit}

/-! ### The mandatory links while a candidate is being committed -/

/-- The mandatory links once the first `count` registers of a candidate are linked. -/
def LinkedUpTo (g : ChainGraph) (regs : List Register) (count : Nat) (lo hi : Register) : Prop :=
  g.Follows true lo hi ∨ ∃ i, i + 1 < count ∧ regs[i]? = some lo ∧ regs[i + 1]? = some hi

namespace Placeable

variable {lo hi : Register}

theorem linked_rightUnique (placeable : g.Placeable regs base) (shaped : g.Shaped) :
    Relator.RightUnique (g.LinkedUpTo regs count) := by
  rintro lo hi hi' (follows | ⟨i, _, here, there⟩) (follows' | ⟨i', _, here', there'⟩)
  · exact shaped.follows_rightUnique true follows follows'
  · exact placeable.next i' lo hi' hi here' there' follows
  · exact (placeable.next i lo hi hi' here there follows').symm
  · cases index_unique placeable.distinct here here'
    exact Option.some_inj.mp (there.symm.trans there')

theorem linked_leftUnique (placeable : g.Placeable regs base) (shaped : g.Shaped) :
    Relator.LeftUnique (g.LinkedUpTo regs count) := by
  rintro lo lo' hi (follows | ⟨i, _, here, there⟩) (follows' | ⟨i', _, here', there'⟩)
  · exact shaped.follows_leftUnique true follows follows'
  · exact placeable.prev i' lo' hi lo here' there' follows
  · exact (placeable.prev i lo hi lo' here there follows').symm
  · have same := index_unique placeable.distinct there there'
    obtain rfl : i = i' := by omega
    exact Option.some_inj.mp (here.symm.trans here')

theorem linked_one (g : ChainGraph) (regs : List Register) :
    g.LinkedUpTo regs 1 lo hi ↔ g.Follows true lo hi := by
  constructor
  · rintro (follows | ⟨i, no, _⟩)
    · exact follows
    · omega
  · exact .inl

theorem linked_succ (here : regs[count]? = some first) (there : regs[count + 1]? = some second) :
    g.LinkedUpTo regs (count + 2) lo hi ↔
      g.LinkedUpTo regs (count + 1) lo hi ∨ (lo = first ∧ hi = second) := by
  constructor
  · rintro (follows | ⟨i, bound, placed, placed'⟩)
    · exact .inl (.inl follows)
    · by_cases last : i = count
      · subst last
        exact .inr ⟨Option.some_inj.mp (placed.symm.trans here),
          Option.some_inj.mp (placed'.symm.trans there)⟩
      · exact .inl (.inr ⟨i, by omega, placed, placed'⟩)
  · rintro ((follows | ⟨i, bound, placed, placed'⟩) | ⟨rfl, rfl⟩)
    · exact .inl follows
    · exact .inr ⟨i, by omega, placed, placed'⟩
    · exact .inr ⟨count, by omega, here, there⟩

/-! ### Runs while a candidate is being committed -/

/-- The run of a later register is not touched by the links before it. -/
theorem run_untouched (placeable : g.Placeable regs base) (there : regs[count]? = some second)
    (free : g.ahead second = 0) (run : IsRun (g.Follows true) ms) (mem : second ∈ ms) :
    IsRun (g.LinkedUpTo regs count) ms := by
  have later : ∀ i r, regs[i]? = some r → r ∈ ms → count ≤ i := by
    intro i r placed isMem
    have apart := placeable.places i count r second placed there ms run isMem mem
    omega
  refine run.congr ?_ ?_
  · intro elem isMem next
    refine ⟨?_, .inl⟩
    rintro (follows | ⟨i, bound, placed, _⟩)
    · exact follows
    · have := later i elem placed isMem
      omega
  · intro elem isMem previous
    refine ⟨?_, .inl⟩
    rintro (follows | ⟨i, bound, _, placed⟩)
    · exact follows
    · have := later (i + 1) elem placed isMem
      omega

theorem take_succ_of_getElem? (placed : regs[count]? = some r) :
    regs.take (count + 1) = regs.take count ++ [r] := by
  rw [take_add_one, placed]
  rfl

/-- The first registers of a candidate, with what is required before and behind them. -/
structure Merged (g : ChainGraph) (regs : List Register) (count : Nat)
    (before behind : List Register) : Prop where
  run : IsRun (g.LinkedUpTo regs (count + 1)) (before ++ regs.take (count + 1) ++ behind)
  first : ∃ reg rest, regs.head? = some reg ∧ IsRun (g.Follows true) (before ++ reg :: rest)
  last : ∃ reg front, regs[count]? = some reg ∧ IsRun (g.Follows true) (front ++ reg :: behind)

namespace Merged

theorem length (merged : Merged g regs count pre post) (shaped : g.Shaped) :
    (pre ++ regs.take (count + 1) ++ post).length = g.span (regs.take (count + 1)) := by
  obtain ⟨start, rest, starts, startRun⟩ := merged.first
  obtain ⟨final, front, ends, endRun⟩ := merged.last
  unfold span
  rw [head?_take, if_neg (Nat.succ_ne_zero count), starts, take_succ_of_getElem? ends,
    getLast?_concat, Option.elim_some, Option.elim_some, (shaped.standing startRun).1,
    (shaped.standing endRun).2.1]
  simp only [length_append]

/-- Every register of the joined run was on a run with one of the candidate's registers. -/
theorem origin (merged : Merged g regs count pre post) (shaped : g.Shaped) {elem : Register}
    (mem : elem ∈ pre ++ regs.take (count + 1) ++ post) :
    ∃ r ∈ regs.take (count + 1), ∃ ms, IsRun (g.Follows true) ms ∧ r ∈ ms ∧ elem ∈ ms := by
  rcases mem_append.mp mem with inFront | inBehind
  · rcases mem_append.mp inFront with inBefore | isOwn
    · obtain ⟨start, rest, starts, startRun⟩ := merged.first
      refine ⟨start, mem_of_mem_head? ?_, _, startRun, mem_append_cons_self,
        mem_append_left _ inBefore⟩
      rw [head?_take, if_neg (Nat.succ_ne_zero count)]
      exact starts
    · obtain ⟨pre', post', run⟩ := shaped.exists_registerRun true elem
      exact ⟨elem, isOwn, _, run, mem_append_cons_self, mem_append_cons_self⟩
  · obtain ⟨final, front, ends, endRun⟩ := merged.last
    refine ⟨final, ?_, _, endRun, mem_append_cons_self,
      mem_append_right _ (mem_cons_of_mem _ inBehind)⟩
    rw [take_succ_of_getElem? ends]
    exact mem_append_right _ (mem_singleton_self _)

section

variable (merged : Merged g regs count pre post) (placeable : g.Placeable regs base)
  (shaped : g.Shaped)

include merged placeable shaped

theorem nodup : (pre ++ regs.take (count + 1) ++ post).Nodup :=
  merged.run.nodup (placeable.linked_leftUnique shaped)

/-- A register's own run is a part of the joined one. -/
theorem isInfix (own : r ∈ regs.take (count + 1)) (run : IsRun (g.Follows true) ms) (mem : r ∈ ms) :
    ms <:+: pre ++ regs.take (count + 1) ++ post :=
  merged.run.isInfix_of_mem (placeable.linked_leftUnique shaped)
    (placeable.linked_rightUnique shaped) (fun _ _ => .inl) run
    (mem_append_left _ (mem_append_right _ own)) mem

/-- A register of the candidate that is on the joined run stands at its place there. -/
theorem place (listed : regs[i]? = some r) (isMem : r ∈ pre ++ regs.take (count + 1) ++ post) :
    (pre ++ regs.take (count + 1) ++ post)[pre.length + i]? = some r := by
  obtain ⟨other, own, ms, run, mem, mem'⟩ := merged.origin shaped isMem
  obtain ⟨left, back, split⟩ := merged.isInfix placeable shaped own run mem
  have stands : ∀ one ∈ ms,
      (pre ++ regs.take (count + 1) ++ post)[left.length + g.ahead one]? = some one := by
    intro one within
    obtain ⟨front, rest, rfl⟩ := append_of_mem within
    rw [(shaped.standing run).1, ← split]
    simp
  obtain ⟨j, placed⟩ := getElem?_of_mem own
  have bound := lt_of_getElem? placed
  have listed' : regs[j]? = some other := by
    rw [← placed, getElem?_take_of_lt (by rw [length_take] at bound; omega)]
  have here : (pre ++ regs.take (count + 1) ++ post)[pre.length + j]? = some other := by
    rw [append_assoc, getElem?_append_right (Nat.le_add_right _ _), Nat.add_sub_cancel_left,
      getElem?_append_left bound]
    exact placed
  have same := index_unique (merged.nodup placeable shaped) here (stands other mem)
  have distance := placeable.places i j r other listed listed' ms run mem' mem
  rw [← stands r mem']
  congr 1
  omega

end

section

variable (merged : Merged g regs count pre post)

include merged

/-- A mandatory link that is already there takes the next register along. -/
theorem along (shaped : g.Shaped) (here : regs[count]? = some first)
    (there : regs[count + 1]? = some second) (follows : g.Follows true first second) :
    ∃ post', post = second :: post' ∧ Merged g regs (count + 1) pre post' := by
  obtain ⟨_, front, here', own⟩ := merged.last
  cases here.symm.trans here'
  obtain ⟨pre', post', split⟩ := own.split_of_next (shaped.follows_rightUnique true)
    mem_append_cons_self follows
  have distinct := own.nodup (shaped.follows_leftUnique true)
  obtain ⟨_, rfl⟩ := append_cons_inj (split ▸ distinct) split
  have same : ∀ lo hi, g.LinkedUpTo regs (count + 2) lo hi ↔
      g.LinkedUpTo regs (count + 1) lo hi := by
    intro lo hi
    rw [linked_succ here there]
    refine ⟨?_, .inl⟩
    rintro (old | ⟨rfl, rfl⟩)
    · exact old
    · exact .inl follows
  refine ⟨post', rfl, ?_, merged.first, second, front ++ [first], there, ?_⟩
  · rw [take_succ_of_getElem? there]
    have run := merged.run
    rw [← singleton_append, ← append_assoc, append_assoc pre] at run
    exact run.congr (fun _ _ _ => same _ _) fun _ _ _ => same _ _
  · rw [append_assoc, singleton_append]
    exact own

/-- Otherwise nothing stands between the two registers, and their runs are put together. -/
theorem join (placeable : g.Placeable regs base) (shaped : g.Shaped)
    (here : regs[count]? = some first) (there : regs[count + 1]? = some second)
    (apart : ¬ g.Follows true first second) :
    post = [] ∧ ∃ post', IsRun (g.Follows true) (second :: post') ∧
      IsRun (g.LinkedUpTo regs (count + 1)) (second :: post') ∧
      Merged g regs (count + 1) pre post' := by
  obtain ⟨_, front, here', own⟩ := merged.last
  cases here.symm.trans here'
  obtain rfl : post = [] := by
    cases post with
    | nil => rfl
    | cons next rest =>
      have follows : g.Follows true first next := (isChain_append_cons_cons.mp own.linked).2.1
      rw [placeable.next count first second next here there follows] at follows
      exact absurd follows apart
  have free : g.ahead second = 0 := by
    refine shaped.ahead_eq_zero fun one follows => apart ?_
    rw [placeable.prev count first second one here there follows] at follows
    exact follows
  obtain ⟨ahead, post', run⟩ := shaped.exists_registerRun true second
  obtain rfl : ahead = [] := by
    rw [(shaped.standing run).1] at free
    exact length_eq_zero_iff.mp free
  have untouched := placeable.run_untouched there free run mem_cons_self
  refine ⟨rfl, post', run, untouched, ?_, merged.first, second, [], there, run⟩
  · have final : (pre ++ regs.take (count + 1) ++ []).getLast? = some first := by
      rw [take_succ_of_getElem? here]
      simp
    have whole : pre ++ regs.take (count + 2) ++ post' =
        (pre ++ regs.take (count + 1) ++ []) ++ second :: post' := by
      rw [take_succ_of_getElem? there]
      simp
    rw [whole]
    refine merged.run.append untouched final rfl (fun _ _ => linked_succ here there) ?_ ?_
    · rintro elem starts rfl
      -- The next register of the candidate would stand behind all that is joined.
      have later := merged.place placeable shaped there (mem_of_mem_head? starts)
      rw [head?_eq_getElem?] at starts
      have same := index_unique (merged.nodup placeable shaped) later starts
      omega
    · rintro elem ends rfl
      have mem : elem ∈ second :: post' := mem_of_mem_getLast? ends
      have distance :=
        placeable.places count (count + 1) elem second here there _ run mem mem_cons_self
      omega

/-- The joined run is in the bank of the candidate. -/
theorem bank (placeable : g.Placeable regs base) (sound : g.Sound) (bounded : g.Bounded) :
    g.bankAmong (pre ++ regs.take (count + 1) ++ post) = g.bankFor (regs.take (count + 1)) := by
  have own : ∀ r, ∃ ms, IsRun (g.Follows true) ms ∧ r ∈ ms ∧ g.runBank r = g.bankAmong ms := by
    intro r
    obtain ⟨pre', post', run⟩ := sound.exists_registerRun true r
    exact ⟨_, run, mem_append_cons_self, (sound.standing run).2.2⟩
  unfold bankFor
  cases missing : g.bankAmong (pre ++ regs.take (count + 1) ++ post) with
  | none =>
    symm
    rw [findSome?_eq_none_iff]
    intro r isMem
    obtain ⟨ms, run, mem, bank⟩ := own r
    rw [bank, bankAmong_eq_none]
    intro elem within
    exact bankAmong_eq_none.mp missing elem
      ((merged.isInfix placeable sound.toShaped isMem run mem).mem within)
  | some bank =>
    obtain ⟨elem, isMem, pin, isPin, rfl⟩ := exists_of_bankAmong missing
    obtain ⟨r, own', ms, run, mem, within⟩ := merged.origin sound.toShaped isMem
    have pinned : g.runBank r = some pin.bank := by
      obtain ⟨ms', run', mem', bank⟩ := own r
      rw [bank, sound.eq_of_mem run' run mem' mem]
      exact bounded.mandatory_uniform sound run within isPin
    cases isBank : (regs.take (count + 1)).findSome? g.runBank with
    | none =>
      rw [findSome?_eq_none_iff.mp isBank r own'] at pinned
      cases pinned
    | some bank' =>
      obtain ⟨register', own'', pinned'⟩ := exists_of_findSome?_eq_some isBank
      exact congrArg some (placeable.banks r (mem_of_mem_take own') register'
        (mem_of_mem_take own'') _ _ pinned pinned')

end

end Merged

theorem exists_merged (placeable : g.Placeable regs base) (shaped : g.Shaped)
    (bound : count < regs.length) : ∃ pre post, Merged g regs count pre post := by
  induction count with
  | zero =>
    obtain ⟨head, rest, rfl⟩ := exists_cons_of_length_pos bound
    obtain ⟨pre, post, run⟩ := shaped.exists_registerRun true head
    refine ⟨pre, post, ?_, ⟨head, post, rfl, run⟩, head, pre, rfl, run⟩
    rw [take_succ_cons, take_zero, append_assoc, singleton_append]
    exact run.congr (fun _ _ _ => linked_one g _) fun _ _ _ => linked_one g _
  | succ count ih =>
    obtain ⟨pre, post, merged⟩ := ih (by omega)
    have here : regs[count]? = some regs[count] := getElem?_eq_getElem (by omega)
    have there : regs[count + 1]? = some regs[count + 1] := getElem?_eq_getElem bound
    by_cases follows : g.Follows true regs[count] regs[count + 1]
    · obtain ⟨post', _, merged'⟩ := merged.along shaped here there follows
      exact ⟨pre, post', merged'⟩
    · obtain ⟨_, post', _, _, merged'⟩ := merged.join placeable shaped here there follows
      exact ⟨pre, post', merged'⟩

end Placeable

/-! ### Committing link by link -/

/-- The constraints once the first `count` registers of a candidate are linked. -/
structure Committed (g : ChainGraph) (regs : List Register) (base : Parity)
    (count : Nat) (now : ChainGraph) : Prop where
  evolves : g.Evolves now
  demands : ∀ low high, now.Follows true low high ↔ g.LinkedUpTo regs count low high
  parity : ∀ index reg, regs[index]? = some reg → now.parityOf reg ≠ .any →
    now.parityOf reg = base.atOffset index

theorem Placeable.committed_one (placeable : g.Placeable regs base) (sound : g.Sound) :
    g.Committed regs base 1 g where
  evolves := sound.evolves_refl
  demands _ _ := (Placeable.linked_one g regs).symm
  parity := placeable.parity

namespace Committed

variable {now : ChainGraph} {a b : Register} {via : Bool}

/-- The joined run is a run of the constraints reached. -/
theorem run (committed : g.Committed regs base count now)
    (linked : IsRun (g.LinkedUpTo regs count) ms) : IsRun (now.Follows true) ms :=
  linked.congr (fun _ _ _ => committed.demands _ _) fun _ _ _ => committed.demands _ _

section

variable (committed : g.Committed regs base (count + 1) now)
  (placeable : g.Placeable regs base) (sound : g.Sound)

include committed placeable sound

/-- A link that is made keeps the registers of the candidate in step. -/
theorem step (here : regs[count]? = some a) (there : regs[count + 1]? = some b)
    (ties : now.Ties after a b true) (evolves : now.Evolves after) :
    g.Committed regs base (count + 2) after := by
  have demands : ∀ lo hi, after.Follows true lo hi ↔ g.LinkedUpTo regs (count + 2) lo hi := by
    intro lo hi
    rw [ties.demands, committed.demands, Placeable.linked_succ here there]
    simp
  refine ⟨committed.evolves.trans evolves, demands, ?_⟩
  intro i r placed fixed
  by_cases same : after.parityOf r = now.parityOf r
  · rw [same] at fixed ⊢
    exact committed.parity i r placed fixed
  · -- The parity is new, so it comes from one of the two registers along the joined run.
    obtain ⟨⟨ms, run, mem, withFirst⟩, source⟩ := ties.parity r same
    have bound : count + 1 < regs.length := lt_of_getElem? there
    obtain ⟨pre, post, merged⟩ := placeable.exists_merged sound.toShaped bound
    have joined : IsRun (after.Follows true) (pre ++ regs.take (count + 2) ++ post) :=
      merged.run.congr (fun _ _ _ => demands _ _) fun _ _ _ => demands _ _
    have firstInside : a ∈ pre ++ regs.take (count + 2) ++ post := by
      refine mem_append_left _ (mem_append_right _ ?_)
      exact mem_of_getElem? ((getElem?_take_of_lt (by omega)).trans here)
    have secondInside : b ∈ pre ++ regs.take (count + 2) ++ post := by
      refine mem_append_left _ (mem_append_right _ ?_)
      exact mem_of_getElem? ((getElem?_take_of_lt (by omega)).trans there)
    rw [ties.sound.eq_of_mem run joined withFirst firstInside] at mem
    have registerPlace := merged.place placeable sound.toShaped placed mem
    have spread : ∀ (i' : Nat) (register' : Register), regs[i']? = some register' →
        register' ∈ pre ++ regs.take (count + 2) ++ post →
        now.parityOf register' ≠ .any → after.parityOf r = base.atOffset i := by
      intro i' register' placed' mem' fixed'
      have sourcePlace := merged.place placeable sound.toShaped placed' mem'
      have kept :=
        evolves.grows.parityOf committed.evolves.sound.toShaped ties.sound.toShaped fixed'
      rw [ties.sound.parity_between joined.linked sourcePlace registerPlace, kept,
        committed.parity i' register' placed' fixed', atOffset_atOffset]
      exact atOffset_congr base (by omega)
    rcases source with firstFixed | secondFixed
    · exact spread count a here firstInside firstFixed
    · exact spread (count + 1) b there secondInside secondFixed

/-- The two registers of the next link agree. -/
theorem allows (here : regs[count]? = some a) (there : regs[count + 1]? = some b) :
    now.Allows a b := by
  refine ⟨fun lo hi lowPin highPin => ?_, ?_⟩
  · have pins := committed.evolves.grows.pinAt sound.toShaped committed.evolves.sound.toShaped
    rw [pins] at lowPin highPin
    exact placeable.pins count a b lo hi here there lowPin highPin
  · by_cases lowFree : now.parityOf a = .any
    · exact .inl lowFree
    · by_cases highFree : now.parityOf b = .any
      · exact .inr (.inl highFree)
      · refine .inr (.inr ?_)
        rw [committed.parity count a here lowFree,
          committed.parity (count + 1) b there highFree, atOffset_succ]

/-- Once a link is made, there is room for what has been joined. -/
theorem room (bounded : g.Bounded) (bound : count < regs.length) : g.span (regs.take (count + 1)) ≤
      g.limit ((g.bankFor (regs.take (count + 1))).getD .temp) := by
  obtain ⟨pre, post, merged⟩ := placeable.exists_merged sound.toShaped bound
  have fits := (committed.evolves.bounded bounded).mandatory_room committed.evolves.sound
    (committed.run merged.run)
  rw [committed.evolves.grows.bankAmong sound.toShaped committed.evolves.sound.toShaped,
    committed.evolves.grows.limit, merged.length sound.toShaped,
    merged.bank placeable sound bounded] at fits
  exact fits

/-- If there is room for what would be joined, the next link is made. -/
theorem link_of_room (bounded : g.Bounded) (here : regs[count]? = some a)
    (there : regs[count + 1]? = some b) (room : g.span (regs.take (count + 2)) ≤
      g.limit ((g.bankFor (regs.take (count + 2))).getD .temp)) :
    (now.link a b true via).result = true := by
  have bound : count + 1 < regs.length := lt_of_getElem? there
  have sensible : linkable a b = true := by
    have apart : a ≠ b := by
      rintro rfl
      have same := index_unique placeable.distinct here there
      omega
    unfold linkable
    rw [placeable.virtual a (mem_of_getElem? here), placeable.virtual b (mem_of_getElem? there)]
    simp [apart]
  have bound' : count < regs.length := by omega
  obtain ⟨pre, post, merged⟩ := placeable.exists_merged sound.toShaped bound'
  have firstRun := committed.run merged.run
  rw [Placeable.take_succ_of_getElem? here, ← append_assoc, append_assoc,
    singleton_append] at firstRun
  obtain ⟨pre', post', secondRun⟩ := committed.evolves.sound.exists_registerRun true b
  rcases committed.evolves.sound.link_cases true via firstRun secondRun with
    ⟨_, _, refused⟩ | ⟨made, _⟩ | ⟨made, _⟩
  · obtain ⟨untied, roomless⟩ := refused sensible
    obtain ⟨rfl, behind, ownRun, untouched, merged'⟩ :=
      merged.join placeable sound.toShaped here there
      fun follows => untied ((committed.demands a b).mpr (.inl follows)).weaken
    have own : IsRun (now.Follows true) ([] ++ b :: behind) := committed.run untouched
    obtain ⟨rfl, rfl⟩ := append_cons_inj
      (own.nodup (committed.evolves.sound.follows_leftUnique true))
      (committed.evolves.sound.eq_of_mem secondRun own mem_append_cons_self mem_cons_self)
    refine absurd ?_ roomless
    have banks := committed.evolves.grows.bankAmong sound.toShaped committed.evolves.sound.toShaped
    have joined : pre ++ regs.take count ++ [a] = pre ++ regs.take (count + 1) ++ [] := by
      rw [Placeable.take_succ_of_getElem? here]
      simp
    have split : pre ++ regs.take (count + 2) ++ post' =
        (pre ++ regs.take count ++ [a]) ++ b :: post' := by
      rw [Placeable.take_succ_of_getElem? there, joined]
      simp
    have distinct := merged'.nodup placeable sound.toShaped
    rw [← merged'.length sound.toShaped, ← merged'.bank placeable sound bounded, split,
      length_append, bankAmong_append] at room
    rw [split] at distinct
    refine ⟨committed.allows placeable sound here there, rfl, rfl, ?_, ?_, ?_⟩
    · intro same
      rw [same] at distinct
      exact (nodup_append.mp distinct).2.2 b mem_cons_self b mem_cons_self rfl
    · intro bank bank' pinned pinned'
      rw [banks] at pinned pinned'
      rw [joined, merged.bank placeable sound bounded] at pinned
      obtain ⟨r, mem, runPinned⟩ := exists_of_findSome?_eq_some pinned
      have ownRun : IsRun (g.Follows true) ([] ++ b :: post') := ownRun
      exact placeable.banks r (mem_of_mem_take mem) b (mem_of_getElem? there) bank bank' runPinned
        ((sound.standing ownRun).2.2.trans pinned')
    · rw [banks, banks, committed.evolves.grows.limit]
      exact room
  · exact made
  · exact made

end

end Committed

/-- There is room for the first `count` registers of a candidate. -/
def HasRoom (g : ChainGraph) (regs : List Register) (count : Nat) : Prop :=
  g.span (regs.take count) ≤ g.limit ((g.bankFor (regs.take count)).getD .temp)

theorem getElem?_of_drop (left : regs.drop count = first :: rest) :
    regs[count]? = some first ∧ regs.drop (count + 1) = rest := by
  constructor
  · rw [← head?_drop, left]
    rfl
  · rw [← tail_drop, left]
    rfl

/-- The links of a candidate are made exactly if there is room for every beginning of it. -/
theorem Placeable.commitLinks_iff (placeable : g.Placeable regs base) (sound : g.Sound)
    (bounded : g.Bounded) (via : Bool) (committed : g.Committed regs base (count + 1) now)
    (left : regs.drop count = first :: rest) :
    ((∃ after, (commitLinks via (first :: rest)).Yields now () after) ↔
      ∀ further, count ≤ further → further < regs.length → g.HasRoom regs (further + 1)) ∧
    ∀ after, (commitLinks via (first :: rest)).Yields now () after →
    g.Committed regs base regs.length after := by
  induction rest generalizing count now first with
  | nil =>
    have length : regs.length = count + 1 := by
      have counted := congrArg List.length left
      rw [length_drop, length_singleton] at counted
      omega
    refine ⟨⟨fun _ further later bound => ?_, fun _ => ⟨now, yields_pure.mpr ⟨rfl, rfl⟩⟩⟩,
      fun after ran => ?_⟩
    · obtain rfl : further = count := by omega
      exact committed.room placeable sound bounded bound
    · obtain ⟨_, rfl⟩ := yields_pure.mp ran
      rw [length]
      exact committed
  | cons next rest ih =>
    obtain ⟨here, left'⟩ := getElem?_of_drop left
    obtain ⟨there, _⟩ := getElem?_of_drop left'
    have step := fun made => ih (committed.step placeable sound here there
      ((committed.evolves.sound.link first next true via).1 made)
      (committed.evolves.sound.evolves_link first next true via (.inl rfl))) left'
    simp only [commitLinks_cons_yields]
    refine ⟨⟨?_, fun room => ?_⟩, fun after ⟨made, ranRest⟩ => (step made).2 after ranRest⟩
    · rintro ⟨after, made, ranRest⟩ further later bound
      rcases later.eq_or_lt with rfl | later
      · exact committed.room placeable sound bounded bound
      · exact (step made).1.mp ⟨after, ranRest⟩ further later bound
    · have made : (now.link first next true via).result = true :=
        committed.link_of_room placeable sound bounded here there
          (room (count + 1) (Nat.le_succ count) (lt_of_getElem? there))
      obtain ⟨after, ranRest⟩ := (step made).1.mpr fun further later => room further (by omega)
      exact ⟨after, made, ranRest⟩

/-- Once the links are made, the parity can be demanded. -/
theorem Committed.commitParity_yields (committed : g.Committed regs base count now)
    (placeable : g.Placeable regs base) :
    ∃ after, (commitParity regs base).Yields now () after := by
  unfold commitParity
  cases regs with
  | nil => exact ⟨now, yields_pure.mpr ⟨rfl, rfl⟩⟩
  | cons head rest =>
    simp only
    by_cases free : base = .any
    · rw [if_pos (isAny_iff.mpr free)]
      exact ⟨now, yields_pure.mpr ⟨rfl, rfl⟩⟩
    · rw [if_neg fun isAny => free (isAny_iff.mp isAny)]
      have equips := committed.evolves.sound.equipped_ensure head
      have named : (now.ensure head).graph.find head = some (now.ensure head).result := by
        rw [equips.find, if_pos rfl]
      obtain ⟨n, found, _⟩ := equips.sound.live_of_find named
      have fits : n.parity = .any ∨ n.parity = base := by
        rw [← parityOf_of_find named found, equips.parity]
        by_cases fixed : now.parityOf head = .any
        · exact .inl fixed
        · exact .inr (committed.parity 0 head rfl fixed)
      refine ⟨((now.ensure head).graph.setParity (now.ensure head).result base true).2, ?_⟩
      refine yields_bind.mpr ⟨_, _, create_yields.mpr
        ⟨placeable.virtual head mem_cons_self, rfl, rfl⟩, ?_⟩
      refine yields_bind.mpr
        ⟨_, _, demandParity_yields.mpr (.inr ⟨free, ⟨n, found⟩, rfl, rfl⟩), ?_⟩
      rw [setParity_eq found free true fits]
      exact yields_pure.mpr ⟨rfl, rfl⟩

/-! ### Judging and committing -/

theorem Placeable.commit_iff (placeable : g.Placeable regs base) (sound : g.Sound)
    (bounded : g.Bounded) (via : Bool) :
    (∃ after, (commit regs base via).Yields g () after) ↔
      ∀ count, count ≤ regs.length → g.HasRoom regs count := by
  have virt : regs.all (·.isVirtual) = true := all_eq_true.mpr placeable.virtual
  unfold commit
  rw [if_pos virt]
  have none : g.HasRoom regs 0 := by
    show g.span (regs.take 0) ≤ _
    rw [take_zero]
    exact Nat.zero_le _
  cases listed : regs with
  | nil =>
    constructor
    · intro _ count bound
      obtain rfl : count = 0 := by simpa using bound
      rw [← listed]
      exact none
    · intro _
      exact ⟨g, yields_bind.mpr ⟨(), g, yields_pure.mpr ⟨rfl, rfl⟩, yields_pure.mpr ⟨rfl, rfl⟩⟩⟩
  | cons head rest =>
    rw [← listed]
    have left : regs.drop 0 = head :: rest := listed
    obtain ⟨made, committed⟩ :=
      placeable.commitLinks_iff sound bounded via (placeable.committed_one sound) left
    rw [← listed] at made committed
    constructor
    · rintro ⟨after, ran⟩ count bound
      obtain ⟨_, mid, links, _⟩ := yields_bind.mp ran
      cases count with
      | zero => exact none
      | succ count => exact made.mp ⟨mid, links⟩ count (Nat.zero_le count) bound
    · intro room
      obtain ⟨mid, links⟩ := made.mpr fun further _ => room (further + 1)
      obtain ⟨after, parities⟩ := (committed mid links).commitParity_yields placeable
      exact ⟨after, yields_bind.mpr ⟨(), mid, links, parities⟩⟩

/-- There is nothing to commit about a hardware run. -/
theorem commit_of_fitNumbered (fits : g.fitNumbered (regs.map .register) parity = .ok fit)
    (via : Bool) : (commit regs base via).Yields g () g := by
  obtain ⟨first, bank, starts, hardware, ascending, _, _, _⟩ := fitNumbered_eq_ok.mp fits
  have notVirtual : ¬ regs.all (·.isVirtual) = true := by
    intro virt
    have mem := mem_of_mem_head? starts
    rw [hardwareBank_of_isVirtual (all_eq_true.mp virt first mem)] at hardware
    cases hardware
  have allHardware : regs.all (·.hardwareBank.isSome) = true := by
    rw [all_eq_true]
    intro r isMem
    rw [ascending.hardware hardware r isMem]
    rfl
  unfold commit
  rw [if_neg notVirtual, if_pos allHardware]
  exact yields_pure.mpr ⟨rfl, rfl⟩

/-- A candidate that fits can be committed exactly if every beginning of it fits. -/
theorem Sound.commit_iff_fits (sound : g.Sound) (bounded : g.Bounded)
    (fits : g.fitOperands regs parity = .ok fit) (via : Bool) :
    (∃ after, (commit regs fit.parity via).Yields g () after) ↔ ∀ count, count ≤ regs.length →
        ∃ fit', g.fitOperands (regs.take count) parity = .ok fit' := by
  unfold fitOperands ChainGraph.fit at fits ⊢
  by_cases numbered : (regs.map Slot.register).any isNumbered = true
  · rw [if_pos numbered] at fits
    obtain ⟨first, bank, starts, hardware, _, _, _, _⟩ := fitNumbered_eq_ok.mp fits
    refine iff_of_true ⟨g, commit_of_fitNumbered fits via⟩ fun count _ => ?_
    cases count with
    | zero => exact ⟨_, rfl⟩
    | succ count =>
      have numbered' : ((regs.take (count + 1)).map Slot.register).any isNumbered = true := by
        rw [any_isNumbered_eq_true]
        refine ⟨first, mem_of_mem_head? ?_, by rw [hardware]; rfl⟩
        rw [head?_take, if_neg (Nat.succ_ne_zero count)]
        exact starts
      rw [if_pos numbered']
      exact fitNumbered_take fits (Nat.succ_pos count)
  · rw [if_neg numbered] at fits
    have unnumbered := unnumbered_of_not_any numbered
    have placeable := sound.placeable_of_fit fits unnumbered
    rw [placeable.commit_iff sound bounded via]
    refine forall₂_congr fun count _ => ?_
    have unnumbered' : ¬ ((regs.take count).map Slot.register).any isNumbered = true := by
      rw [any_isNumbered_eq_true]
      rintro ⟨r, mem, hardware⟩
      rw [unnumbered r (mem_of_mem_take mem)] at hardware
      cases hardware
    rw [if_neg unnumbered']
    exact (sound.fitVirtual_take_iff fits count).symm

/-! ### Graphs without pins -/

theorem Shaped.bankFor_of_unpinned (shaped : g.Shaped) (unpinned : ∀ r, g.pinAt r = none)
    (regs : List Register) : g.bankFor regs = none := by
  refine findSome?_eq_none_iff.mpr fun r _ => ?_
  obtain ⟨pre, post, run⟩ := shaped.exists_registerRun true r
  rw [(shaped.standing run).2.2]
  exact bankAmong_eq_none.mpr fun one _ => unpinned one

/-- Without pins there is no roomier bank than the temporaries, so that a candidate that fits
can be committed. -/
theorem Sound.commit_of_unpinned (sound : g.Sound) (unpinned : ∀ r, g.pinAt r = none)
    (bounded : 1 ≤ g.limit .temp → g.Bounded) (fits : g.fitOperands regs parity = .ok fit)
    (via : Bool) : ∃ after, (commit regs fit.parity via).Yields g () after := by
  unfold fitOperands ChainGraph.fit at fits
  split at fits
  · exact ⟨g, commit_of_fitNumbered fits via⟩
  · next numbered =>
    have placeable := sound.placeable_of_fit fits (unnumbered_of_not_any numbered)
    have room : ∀ count, g.HasRoom regs count := by
      intro count
      have whole := (sound.fitVirtual_take_iff fits regs.length).mp
        ⟨fit, by rw [take_length]; exact fits⟩
      rw [take_length] at whole
      show g.span _ ≤ g.limit _
      rw [sound.bankFor_of_unpinned unpinned] at whole ⊢
      exact (placeable.span_take_le sound.toShaped count).trans whole
    cases regs with
    | nil =>
      exact ⟨g, yields_bind.mpr ⟨(), g, yields_pure.mpr ⟨rfl, rfl⟩, yields_pure.mpr ⟨rfl, rfl⟩⟩⟩
    | cons head rest =>
      have one : 1 ≤ g.limit .temp := by
        have single := room 1
        unfold HasRoom at single
        rw [sound.bankFor_of_unpinned unpinned] at single
        refine Nat.le_trans ?_ single
        show 1 ≤ g.ahead head + 1 + g.beyond head
        omega
      exact (placeable.commit_iff sound (bounded one) via).mpr fun count _ => room count

end ChainGraph

end RegisterChains

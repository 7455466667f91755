/-
This file says what it means for a candidate to fit where nothing is pinned: the registers of the
candidate, and all registers on their mandatory runs, can be given different numbers that meet
every constraint among them. What is checked of a candidate is local. The checks add up because
the runs of its registers can stick out only at the two ends of the candidate, before the first
register and behind the last one, so that no two of them get in each other's way.
-/

import RegisterChains.Proofs.Chain.Embedding
import RegisterChains.Proofs.Chain.Reached

namespace RegisterChains

open List Parity

/-! ### Parities of natural numbers -/

namespace Parity

variable {parity : Parity} {number : Nat}

/-- Whether a natural number meets the requirement. -/
def Admits : Parity → Nat → Prop
  | any, _ => True
  | even, number => number % 2 = 0
  | odd, number => number % 2 = 1

theorem admits_iff : parity.Admits number ↔ parity = .any ∨ parity = even.atOffset number := by
  unfold Admits atOffset
  rcases Nat.mod_two_eq_zero_or_one number with isEven | isOdd
  · cases parity <;> simp [isEven]
  · cases parity <;> simp [isOdd, complement]

/-- Hardware numbers are judged as natural numbers are. -/
theorem allows_iff_admits {number : UInt32} :
    parity.allows number = true ↔ parity.Admits number.toNat := by
  rw [allows_iff, admits_iff, ofNumber_eq]

/-- A requirement moves along with the number. -/
theorem admits_atOffset {offset : Nat} (allowed : parity.Admits number) :
    (parity.atOffset offset).Admits (number + offset) := by
  rw [admits_iff] at allowed ⊢
  rcases allowed with rfl | rfl
  · exact .inl (atOffset_eq_any.mpr rfl)
  · exact .inr (atOffset_atOffset even number offset)

theorem admits_congr {other : Nat} (same : number % 2 = other % 2)
    (allowed : parity.Admits number) : parity.Admits other := by
  rw [admits_iff] at allowed ⊢
  rwa [← atOffset_congr even same]

/-- There are numbers of any parity above every number. -/
theorem exists_admits (parity : Parity) (lo : Nat) :
    ∃ number, lo ≤ number ∧ parity.Admits number := by
  unfold Admits
  cases parity with
  | any => exact ⟨lo, le_refl lo, trivial⟩
  | even => exact ⟨2 * lo, by omega, by simp only; omega⟩
  | odd => exact ⟨2 * lo + 1, by omega, by simp only; omega⟩

end Parity

namespace ChainGraph

variable {g : ChainGraph} {cand : List Register} {parity settled : Parity} {r other : Register}

/-! ### Registers on one run -/

/-- Two registers are on one mandatory run. -/
def Together (g : ChainGraph) (r other : Register) : Prop :=
  ∃ ms, IsRun (g.Follows true) ms ∧ r ∈ ms ∧ other ∈ ms

section Runs

variable {r other : Register} {ms : List Register}

theorem Shaped.together_refl (shaped : g.Shaped) (r : Register) : g.Together r r := by
  obtain ⟨pre, post, run⟩ := shaped.exists_registerRun true r
  exact ⟨_, run, by simp, by simp⟩

theorem Together.symm (together : g.Together r other) : g.Together other r := by
  obtain ⟨ms, run, mem, mem'⟩ := together
  exact ⟨ms, run, mem', mem⟩

section

variable (shaped : g.Shaped)

include shaped

theorem Shaped.together_trans {third : Register} (together : g.Together r other)
    (together' : g.Together other third) : g.Together r third := by
  obtain ⟨ms, run, mem, shared⟩ := together
  obtain ⟨ms', run', shared', mem'⟩ := together'
  have same := shaped.eq_of_mem run run' shared shared'
  exact ⟨ms', run', same ▸ mem, mem'⟩

theorem Shaped.together_of_follows (follows : g.Follows true r other) : g.Together r other := by
  obtain ⟨pre, post, run⟩ := shaped.exists_registerRun true r
  obtain ⟨front, back, split⟩ := run.split_of_next (shaped.follows_rightUnique true)
    (by simp) follows
  exact ⟨_, run, by simp, by simp [split]⟩

theorem Shaped.place_on_run (run : IsRun (g.Follows true) ms) (mem : r ∈ ms) :
    ms[g.ahead r]? = some r ∧ ms.length = g.ahead r + g.beyond r + 1 := by
  obtain ⟨pre, post, rfl⟩ := append_of_mem mem
  obtain ⟨isAhead, isBeyond, _⟩ := shaped.standing run
  rw [isAhead, isBeyond]
  refine ⟨by simp, ?_⟩
  rw [length_append, length_cons]
  omega

/-- Registers on one run that have equally many before them are the same. -/
theorem Shaped.eq_of_ahead (together : g.Together r other) (same : g.ahead r = g.ahead other) :
    r = other := by
  obtain ⟨ms, run, mem, mem'⟩ := together
  have placed := (shaped.place_on_run run mem).1
  rw [same, (shaped.place_on_run run mem').1] at placed
  exact (Option.some_inj.mp placed).symm

theorem Shaped.ahead_le_of_together (together : g.Together r other) :
    g.ahead other ≤ g.ahead r + g.beyond r := by
  obtain ⟨ms, run, mem, mem'⟩ := together
  have placed := (List.getElem?_eq_some_iff.mp (shaped.place_on_run run mem').1).1
  rw [(shaped.place_on_run run mem).2] at placed
  omega

/-- A run begins with a register that has nothing before it. -/
theorem Shaped.exists_lowest (r : Register) : ∃ lo, g.Together r lo ∧ g.ahead lo = 0 := by
  obtain ⟨pre, post, run⟩ := shaped.exists_registerRun true r
  obtain ⟨lo, rest, split⟩ := exists_cons_of_ne_nil run.nonempty
  refine ⟨lo, ⟨_, run, by simp, by simp [split]⟩, ?_⟩
  exact shaped.ahead_eq_zero fun one => run.first lo (by simp [split]) one

/-- A run ends with a register that has nothing behind it. -/
theorem Shaped.exists_highest (r : Register) : ∃ hi, g.Together r hi ∧
      g.ahead hi = g.ahead r + g.beyond r := by
  obtain ⟨pre, post, run⟩ := shaped.exists_registerRun true r
  have mem : r ∈ pre ++ r :: post := by simp
  obtain ⟨hi, ends⟩ := getLast?_isSome.mpr run.nonempty |> Option.isSome_iff_exists.mp
  have mem' := mem_of_mem_getLast? ends
  refine ⟨hi, ⟨_, run, mem, mem'⟩, ?_⟩
  have zero := shaped.beyond_eq_zero fun one => run.last hi ends one
  have length := (shaped.place_on_run run mem).2
  have length' := (shaped.place_on_run run mem').2
  omega

end

theorem Sound.parity_of_together (sound : g.Sound) (together : g.Together r other) :
    g.parityOf other = (g.parityOf r).atOffset (g.ahead r + g.ahead other) := by
  obtain ⟨ms, run, mem, mem'⟩ := together
  exact sound.parity_between run.linked (sound.place_on_run run mem).1
    (sound.place_on_run run mem').1

end Runs

/-! ### Numbers for a candidate -/

/-- The registers of a candidate, and those on their mandatory runs. -/
def Involves (g : ChainGraph) (cand : List Register) (r : Register) : Prop :=
  ∃ mem ∈ cand, g.Together mem r

/-- Natural numbers that meet all constraints among the registers that a candidate involves, and
make the candidate consecutive. -/
structure Numbers (g : ChainGraph) (cand : List Register) (parity : Parity)
    (number : Register → Nat) : Prop where
  distinct : ∀ reg other, g.Involves cand reg →
    g.Involves cand other → number reg = number other → reg = other
  links : ∀ low high, g.Involves cand low → g.Involves cand high →
    g.Follows true low high → number high = number low + 1
  parities : ∀ reg, g.Involves cand reg → (g.parityOf reg).Admits (number reg)
  ascends : ∀ first ∈ cand.head?, ∀ index reg, cand[index]? = some reg →
    number reg = number first + index
  starts : ∀ first ∈ cand.head?, parity.Admits (number first)
  /-- All numbers are among as many consecutive ones as there are temporaries in a row. -/
  room : ∀ reg other, g.Involves cand reg →
    g.Involves cand other → number reg < number other + g.limit .temp

theorem Shaped.involves_of_mem (shaped : g.Shaped) (mem : r ∈ cand) : g.Involves cand r :=
  ⟨r, mem, shaped.together_refl r⟩

theorem Shaped.involves_of_together (shaped : g.Shaped) (involved : g.Involves cand r)
    (together : g.Together r other) : g.Involves cand other := by
  obtain ⟨mem, isMem, together'⟩ := involved
  exact ⟨mem, isMem, shaped.together_trans together' together⟩

/-! ### A candidate that can be numbered fits -/

namespace Numbers

variable {number : Register → Nat}

section

variable (numbers : g.Numbers cand parity number)

include numbers

/-- Along a run the numbers go up by one. -/
theorem along (shaped : g.Shaped) (involved : g.Involves cand r) (together : g.Together r other) :
    number other + g.ahead r = number r + g.ahead other := by
  obtain ⟨ms, run, isMem, mem'⟩ := together
  have all : ∀ elem ∈ ms, g.Involves cand elem := fun elem mem =>
    shaped.involves_of_together involved ⟨ms, run, isMem, mem⟩
  have linked : ms.IsChain fun lo hi =>
      (number lo : Int) - g.ahead lo = number hi - g.ahead hi := by
    refine run.linked.imp_of_mem_imp fun lo hi lowInside highInside follows => ?_
    rw [numbers.links lo hi (all lo lowInside) (all hi highInside) follows,
      (shaped.standing_step follows).1]
    omega
  have same : (number r : Int) - g.ahead r = number other - g.ahead other :=
    eq_of_isChain linked (fun _ _ same => same) isMem mem'
  omega

theorem ordered (shaped : g.Shaped) : g.Ordered cand := by
  have ascends : ∀ {i lo hi}, cand[i]? = some lo →
      cand[i + 1]? = some hi → number hi = number lo + 1 := by
    intro i lo hi here there
    obtain ⟨first, starts⟩ : ∃ first, first ∈ cand.head? := by
      cases cand with
      | nil => cases here
      | cons head rest => exact ⟨head, rfl⟩
    rw [numbers.ascends first starts _ _ here, numbers.ascends first starts _ _ there]
    rfl
  refine ⟨fun i lo hi one here there follows => ?_, fun i lo hi one here there follows => ?_⟩
  · have involved := shaped.involves_of_mem (mem_of_getElem? here)
    have involved' := shaped.involves_of_together involved (shaped.together_of_follows follows)
    refine numbers.distinct one hi involved' (shaped.involves_of_mem (mem_of_getElem? there)) ?_
    rw [numbers.links lo one involved involved' follows, ascends here there]
  · have involved := shaped.involves_of_mem (mem_of_getElem? there)
    have involved' := shaped.involves_of_together involved (shaped.together_of_follows follows).symm
    refine numbers.distinct one lo involved' (shaped.involves_of_mem (mem_of_getElem? here)) ?_
    have step := numbers.links one hi involved' involved follows
    rw [ascends here there] at step
    exact (Nat.succ_injective step).symm

theorem nodup : cand.Nodup := by
  rw [nodup_iff_getElem?_ne_getElem?]
  intro early late order bound same
  obtain ⟨head, rest, rfl⟩ := exists_cons_of_length_pos (Nat.zero_lt_of_lt bound)
  have there := getElem?_eq_getElem bound
  have one := numbers.ascends head rfl _ _ (same.trans there)
  have ascends := numbers.ascends head rfl _ _ there
  omega

/-- There is room for the candidate and what sticks out of it. -/
theorem span_le (shaped : g.Shaped) : g.span cand ≤ g.limit .temp := by
  cases cand with
  | nil => exact Nat.zero_le _
  | cons first rest =>
    obtain ⟨last, ends⟩ : ∃ last, (first :: rest)[rest.length]? = some last :=
      ⟨_, getElem?_eq_getElem (by simp)⟩
    have final : (first :: rest).getLast? = some last := by
      rw [getLast?_eq_getElem?]
      exact ends
    have firstInvolved : g.Involves (first :: rest) first := shaped.involves_of_mem mem_cons_self
    have lastInvolved : g.Involves (first :: rest) last :=
      shaped.involves_of_mem (mem_of_getElem? ends)
    obtain ⟨lo, togetherLow, isLow⟩ := shaped.exists_lowest first
    obtain ⟨hi, togetherHigh, isHigh⟩ := shaped.exists_highest last
    have room := numbers.room hi lo (shaped.involves_of_together lastInvolved togetherHigh)
      (shaped.involves_of_together firstInvolved togetherLow)
    have alongLow := numbers.along shaped firstInvolved togetherLow
    have alongHigh := numbers.along shaped lastInvolved togetherHigh
    have placed := numbers.ascends first rfl _ _ ends
    unfold span
    rw [final]
    simp only [head?_cons, Option.elim_some, length_cons]
    omega

/-- The parities that the registers need agree with the number of the first one. -/
theorem exists_baseParity (shaped : g.Shaped) : ∃ base,
      baseParity (g.members (cand.map .register)) parity = .ok base := by
  cases cand with
  | nil => exact ⟨parity, rfl⟩
  | cons head rest =>
    have asked := admits_iff.mp (numbers.starts head rfl)
    obtain ⟨base, found, _⟩ := baseParity_of_agreeing asked fun mem isMem fixed => by
      obtain ⟨r, placed, known, found⟩ := register_of_mem_members isMem
      rw [← parityOf_of_find known found] at fixed ⊢
      have allowed := numbers.parities r (shaped.involves_of_mem (mem_of_getElem? placed))
      rw [admits_iff, numbers.ascends head rfl _ _ placed, ← atOffset_atOffset] at allowed
      exact allowed.resolve_left fixed
    exact ⟨base, found⟩

theorem fits (sound : g.Sound) (unpinned : ∀ r, g.pinAt r = none)
    (virt : ∀ r ∈ cand, r.isVirtual = true) :
    ∃ fit, g.fitVirtual (cand.map .register) parity = .ok fit := by
  obtain ⟨base, parities⟩ := numbers.exists_baseParity sound.toShaped
  have room := numbers.span_le sound.toShaped
  rw [← Option.getD_none (a := Bank.temp), ← sound.bankFor_of_unpinned unpinned cand] at room
  obtain ⟨fit, fits, _⟩ := sound.exists_fitVirtual
    (sound.pinsAgree_of_unpinned unpinned cand) number
    virt numbers.nodup (numbers.ordered sound.toShaped) parities room
    fun run isHead atPlace begins => by
      have involved := sound.involves_of_mem (mem_of_getElem? atPlace)
      have along := numbers.along sound.toShaped involved ⟨_, run, by simp, mem_of_mem_head? isHead⟩
      have zero := sound.ahead_eq_zero fun one => run.first _ isHead one
      have placed := numbers.ascends _ begins _ _ atPlace
      omega
  exact ⟨fit, fits⟩

end

end Numbers

/-! ### A candidate that fits can be numbered -/

/-- Registers are counted from those in the candidate that they are on one run with. -/
def Counts (g : ChainGraph) (cand : List Register) (base : Nat) (number : Register → Nat) : Prop :=
  ∀ (i : Nat) mem r, cand[i]? = some mem → g.Together mem r →
      number r + g.ahead mem = base + i + g.ahead r

/-- Registers of one run give the same count, wherever one starts. -/
theorem Placeable.exists_counts (placeable : g.Placeable cand settled) (shaped : g.Shaped)
    {base : Nat} {first : Register} (starts : cand[0]? = some first) (hi : g.ahead first ≤ base) :
    ∃ number, g.Counts cand base number := by
  have each : ∀ r, ∃ v, ∀ (i : Nat) mem, cand[i]? = some mem →
      g.Together mem r → v + g.ahead mem = base + i + g.ahead r := by
    intro r
    by_cases involved : ∃ (i : Nat) (mem : Register), cand[i]? = some mem ∧ g.Together mem r
    · obtain ⟨i, mem, placed, together⟩ := involved
      have bound := placeable.ahead_le shaped starts placed
      refine ⟨base + i + g.ahead r - g.ahead mem, fun i' mem' placed' together' => ?_⟩
      obtain ⟨ms, run, isMem, isMem'⟩ := shaped.together_trans together together'.symm
      have apart := placeable.places i i' mem mem' placed placed' ms run isMem isMem'
      omega
    · exact ⟨0, fun i mem placed together =>
        absurd ⟨i, mem, placed, together⟩ involved⟩
  choose number counts using each
  exact ⟨number, fun i mem r placed => counts r i mem placed⟩

/-- Where a register stands: in the candidate, before its first register, or behind its last. -/
inductive Stands (g : ChainGraph) (cand : List Register) (base : Nat)
    (number : Register → Nat) (reg : Register) : Prop where
  | within (index : Nat) (place : cand[index]? = some reg)
  | before (first : Register) (starts : cand[0]? = some first)
      (together : g.Together first reg) (low : number reg < base)
  | behind (last : Register) (ends : cand[cand.length - 1]? = some last)
      (together : g.Together last reg) (high : base + cand.length ≤ number reg)

namespace Counts

variable {base : Nat} {number : Register → Nat}

section

variable (counts : g.Counts cand base number) {lo hi : Register}

include counts

section

variable (shaped : g.Shaped)

include shaped

theorem within {i : Nat} (placed : cand[i]? = some r) : number r = base + i := by
  have counted := counts i r r placed (shaped.together_refl r)
  omega

/-- Behind a register of the candidate is the next one, or one that sticks out. -/
theorem stands_next (ordered : g.Ordered cand) (follows : g.Follows true lo hi)
    (stands : g.Stands cand base number lo) : g.Stands cand base number hi := by
  have together := shaped.together_of_follows follows
  have step := (shaped.standing_step follows).1
  cases stands with
  | within i placed =>
    have bound := lt_of_getElem? placed
    by_cases inner : i + 1 < cand.length
    · have there := getElem?_eq_getElem inner
      rw [← ordered.next i lo _ hi placed there follows] at there
      exact .within (i + 1) there
    · have final : cand.length - 1 = i := by omega
      refine .behind lo (final ▸ placed) together ?_
      have counted := counts i lo hi placed together
      omega
  | before first starts together' lo' =>
    have onRun := shaped.together_trans together' together
    have counted := counts 0 first lo starts together'
    have counted' := counts 0 first hi starts onRun
    by_cases outside : number hi < base
    · exact .before first starts onRun outside
    · have same : g.ahead first = g.ahead hi := by omega
      exact .within 0 (shaped.eq_of_ahead onRun same ▸ starts)
  | behind last ends together' hi' =>
    have onRun := shaped.together_trans together' together
    have counted := counts _ last lo ends together'
    have counted' := counts _ last hi ends onRun
    exact .behind last ends onRun (by omega)

/-- Before a register of the candidate is the previous one, or one that sticks out. -/
theorem stands_prev (ordered : g.Ordered cand) (follows : g.Follows true lo hi)
    (stands : g.Stands cand base number hi) : g.Stands cand base number lo := by
  have together := (shaped.together_of_follows follows).symm
  have step := (shaped.standing_step follows).1
  cases stands with
  | within i placed =>
    have bound := lt_of_getElem? placed
    cases i with
    | zero =>
      have counted := counts 0 hi lo placed together
      exact .before hi placed together (by omega)
    | succ i =>
      have here : cand[i]? = some cand[i] := getElem?_eq_getElem (by omega)
      rw [← ordered.prev i _ hi lo here placed follows] at here
      exact .within i here
  | before first starts together' lo' =>
    have onRun := shaped.together_trans together' together
    have counted := counts 0 first hi starts together'
    have counted' := counts 0 first lo starts onRun
    exact .before first starts onRun (by omega)
  | behind last ends together' hi' =>
    have onRun := shaped.together_trans together' together
    have counted := counts _ last hi ends together'
    have counted' := counts _ last lo ends onRun
    have bound := lt_of_getElem? ends
    by_cases outside : base + cand.length ≤ number lo
    · exact .behind last ends onRun outside
    · have same : g.ahead last = g.ahead lo := by omega
      exact .within _ (shaped.eq_of_ahead onRun same ▸ ends)

theorem stands (ordered : g.Ordered cand) (involved : g.Involves cand r) :
    g.Stands cand base number r := by
  obtain ⟨mem, isMem, ms, run, mem', mem''⟩ := involved
  obtain ⟨i, placed⟩ := getElem?_of_mem isMem
  have same : g.Stands cand base number mem = g.Stands cand base number r :=
    eq_of_isChain run.linked (fun lo hi follows => propext
      ⟨counts.stands_next shaped ordered follows, counts.stands_prev shaped ordered follows⟩)
      mem' mem''
  exact same ▸ .within i placed

/-- Different registers are counted differently, since what sticks out at one end of the candidate
is on one run. -/
theorem injective (stands : g.Stands cand base number r)
    (stands' : g.Stands cand base number other) (same : number r = number other) : r = other := by
  have bound : ∀ {i : Nat} {elem}, cand[i]? = some elem →
      i < cand.length := fun placed => lt_of_getElem? placed
  have onOneRun : ∀ {i : Nat} {mem}, cand[i]? = some mem →
      g.Together mem r → g.Together mem other → r = other := by
    intro i mem placed together together'
    have counted := counts i mem r placed together
    have counted' := counts i mem other placed together'
    exact shaped.eq_of_ahead (shaped.together_trans together.symm together') (by omega)
  cases stands with
  | within i placed =>
    have counted := counts.within shaped placed
    have lt := bound placed
    cases stands' with
    | within i' placed' =>
      have counted' := counts.within shaped placed'
      obtain rfl : i = i' := by omega
      exact Option.some_inj.mp (placed.symm.trans placed')
    | before first starts together lo => omega
    | behind last ends together hi => omega
  | before first starts together lo =>
    cases stands' with
    | within i placed =>
      have counted := counts.within shaped placed
      omega
    | before first' starts' together' lo' =>
      cases starts.symm.trans starts'
      exact onOneRun starts together together'
    | behind last ends together' hi => omega
  | behind last ends together hi =>
    cases stands' with
    | within i placed =>
      have counted := counts.within shaped placed
      have lt := bound placed
      omega
    | before first starts together' lo => omega
    | behind last' ends' together' hi' =>
      cases ends.symm.trans ends'
      exact onOneRun ends together together'

end

/-- Along a run parities alternate as the numbers do. -/
theorem admits (sound : g.Sound) (placeable : g.Placeable cand settled)
    (allowed : settled.Admits base) (involved : g.Involves cand r) :
    (g.parityOf r).Admits (number r) := by
  obtain ⟨mem, isMem, together⟩ := involved
  obtain ⟨i, placed⟩ := getElem?_of_mem isMem
  have counted := counts i mem r placed together
  by_cases free : g.parityOf mem = .any
  · rw [sound.parity_of_together together, free]
    exact admits_iff.mpr (.inl (atOffset_eq_any.mpr rfl))
  · rw [sound.parity_of_together together, placeable.parity i mem placed free, atOffset_atOffset]
    exact admits_congr (by omega) (admits_atOffset allowed)

/-- The numbers are among as many consecutive ones as the candidate and what sticks out of it
take. -/
theorem lt_add_span (shaped : g.Shaped) (ordered : g.Ordered cand) (involved : g.Involves cand r)
    (involved' : g.Involves cand other) : number r < number other + g.span cand := by
  obtain ⟨hi, highInside, together⟩ := involved
  obtain ⟨lo, lowInside, together'⟩ := involved'
  obtain ⟨highIndex, highPlace⟩ := getElem?_of_mem highInside
  obtain ⟨lowIndex, lowPlace⟩ := getElem?_of_mem lowInside
  have counted := counts highIndex hi r highPlace together
  have counted' := counts lowIndex lo other lowPlace together'
  have short := shaped.ahead_le_of_together together
  obtain ⟨first, rest, rfl⟩ := exists_cons_of_ne_nil (ne_nil_of_mem lowInside)
  obtain ⟨last, ends⟩ : ∃ last, (first :: rest)[(first :: rest).length - 1]? = some last :=
    ⟨_, getElem?_eq_getElem (by simp)⟩
  have final : (first :: rest).getLast? = some last := by
    rw [getLast?_eq_getElem?]
    exact ends
  have front := ordered.ahead_le shaped (rfl : (first :: rest)[0]? = some first) lowPlace
  have back := ordered.beyond_le shaped ends highPlace
  unfold span
  rw [final]
  simp only [head?_cons, Option.elim_some]
  omega

end

end Counts

theorem Sound.exists_numbers (sound : g.Sound) (unpinned : ∀ r, g.pinAt r = none)
    (virt : ∀ r ∈ cand, r.isVirtual = true) (filled : cand ≠ []) {fit : Fit}
    (fits : g.fitVirtual (cand.map .register) parity = .ok fit) :
    ∃ number, g.Numbers cand parity number := by
  have placeable := sound.placeable_of_fit fits fun r isMem =>
    hardwareBank_of_isVirtual (virt r isMem)
  obtain ⟨_, base, _, extent, parities, _, _, extents, room, rfl⟩ := fitVirtual_eq_ok.mp fits
  obtain ⟨length, bank⟩ := sound.span_of_spans placeable.toOrdered (spans_of_foldlM extents)
  rw [length, bank, sound.bankFor_of_unpinned unpinned] at room
  obtain ⟨head, rest, rfl⟩ := exists_cons_of_ne_nil filled
  have starts : (head :: rest)[0]? = some head := rfl
  obtain ⟨origin, hi, allowed⟩ := exists_admits base (g.ahead head)
  obtain ⟨number, counts⟩ := placeable.exists_counts sound.toShaped starts hi
  have isOrigin : number head = origin := counts.within sound.toShaped starts
  refine ⟨number, fun r one involved involved' same => ?_,
    fun lo' hi' involved involved' follows => ?_,
    fun r involved => counts.admits sound placeable allowed involved,
    fun first' isFirst i r placed => ?_, fun first' isFirst => ?_,
    fun r one involved involved' => ?_⟩
  · exact counts.injective sound.toShaped
      (counts.stands sound.toShaped placeable.toOrdered involved)
      (counts.stands sound.toShaped placeable.toOrdered involved') same
  · obtain ⟨mem, isMem, together⟩ := involved
    obtain ⟨i, placed⟩ := getElem?_of_mem isMem
    have counted := counts i mem lo' placed together
    have counted' := counts i mem hi' placed
      (sound.together_trans together (sound.together_of_follows follows))
    have step := (sound.standing_step follows).1
    omega
  · obtain rfl : head = first' := Option.some_inj.mp isFirst
    rw [isOrigin]
    exact counts.within sound.toShaped placed
  · obtain rfl : head = first' := Option.some_inj.mp isFirst
    rw [isOrigin]
    by_cases free : parity = .any
    · rw [free]
      trivial
    · rwa [← (parity_of_baseParity parities).1 free]
  · exact (counts.lt_add_span sound.toShaped placeable.toOrdered involved involved').trans_le
      (Nat.add_le_add_left room _)

/-! ### Requests -/

theorem Sound.fits_iff_numbers (sound : g.Sound) (unpinned : ∀ r, g.pinAt r = none)
    (virt : ∀ r ∈ cand, r.isVirtual = true) (filled : cand ≠ []) :
    (∃ fit, g.fitOperands cand parity = .ok fit) ↔ ∃ number, g.Numbers cand parity number := by
  have unnumbered : ¬ (cand.map Slot.register).any isNumbered = true := by
    rw [any_isNumbered_eq_true]
    rintro ⟨r, mem, hardware⟩
    rw [hardwareBank_of_isVirtual (virt r mem)] at hardware
    cases hardware
  unfold fitOperands fit
  rw [if_neg unnumbered]
  constructor
  · rintro ⟨fit, fits⟩
    exact sound.exists_numbers unpinned virt filled fits
  · rintro ⟨number, numbers⟩
    exact numbers.fits sound unpinned virt

/-- No request pins a register. -/
theorem upkept_unpinned : Upkept fun g => g.Sound ∧ ∀ r, g.pinAt r = none := by
  have grown : ∀ {g after : ChainGraph}, g.Sound → after.Sound → g.Grows after →
      (∀ r, g.pinAt r = none) → ∀ r, after.pinAt r = none :=
    fun sound sound' grows unpinned r => by
      rw [grows.pinAt sound.toShaped sound'.toShaped, unpinned]
  refine upkept_of_sound (fun r sound unpinned => ?_) (fun {g} lo hi must via sound unpinned => ?_)
    (fun id sound unpinned r => ?_) (fun id parity must sound unpinned => ?_)
    fun {g id alone} sound isAlone _ _ unpinned r => ?_
  · have equipped := sound.equipped_ensure r
    exact grown sound equipped.sound equipped.grows unpinned
  · obtain ⟨sound', grows⟩ := sound.grows_link lo hi must via
    exact grown sound sound' grows unpinned
  · rw [(sound.toShaped.recast_unlink id).pinAt_cut, unpinned]
  · have settles := sound.settles_setParity id parity must
    exact grown sound settles.sound settles.grows unpinned
  · rcases (sound.toShaped.loses_dropNode id alone.register).pinAt sound
      (sound.find_of_node? isAlone) r with same | ⟨free, _⟩
    · rw [same, unpinned]
    · exact free

/-- Whatever was asked of a graph without pins, it is exact about candidates: one fits if and only
if its registers and those on their runs can be numbered. -/
theorem fits_requests_iff (limits : BankLimits) (requests : List Request)
    {candidate : List Register} (filled : candidate ≠ [])
    (virtual : ∀ register ∈ candidate, register.isVirtual = true) (parity : Parity) :
    let graph := requests.foldl Request.perform (empty limits)
    (∃ fit, graph.fitOperands candidate parity = .ok fit) ↔
      ∃ number, graph.Numbers candidate parity number := by
  intro graph
  obtain ⟨sound, unpinned⟩ := upkept_unpinned.performAll
    ⟨sound_empty limits, (unpinned_empty limits).pins⟩ requests
  exact sound.fits_iff_numbers unpinned virtual filled

/-- Two runs of two registers, the first of which is at an even number. -/
def pairing : List Request :=
  [.link (.temp 1) none (.temp 2) none true false, .link (.temp 3) none (.temp 4) none true false,
    .commit [.temp 1] .even false]

/-- The runs can be put behind each other, and then the first of the second one is at an even
number, too. -/
theorem fits_pairing :
    let graph := pairing.foldl Request.perform (empty MachineSpec.standard.target.limits)
    (∃ number, graph.Numbers [.temp 2, .temp 3] .odd number) ∧
      ¬ ∃ number, graph.Numbers [.temp 2, .temp 3] .even number := by
  intro graph
  have virtual : ∀ register ∈ [Register.temp 2, .temp 3], register.isVirtual = true := by decide
  have exact' := fits_requests_iff MachineSpec.standard.target.limits pairing
    (cons_ne_nil (Register.temp 2) [.temp 3]) virtual
  have fits : graph.fitOperands [.temp 2, .temp 3] .odd =
      .ok ⟨[some ⟨1⟩, some ⟨2⟩], .odd, .temp⟩ := by decide +kernel
  have conflicts : graph.fitOperands [.temp 2, .temp 3] .even = .error (.parity 0) := by
    decide +kernel
  refine ⟨(exact' .odd).mp ⟨_, fits⟩, (exact' .even).not.mp ?_⟩
  rintro ⟨fit, fits⟩
  cases conflicts.symm.trans fits

end ChainGraph

end RegisterChains

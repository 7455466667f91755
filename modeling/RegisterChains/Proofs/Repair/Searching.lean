/-
This file proves that the search for a plan is exhaustive. It leaves a partial plan that does not
fit, so it comes to the plans that fit at every place on the way. Of those it finds one with the
fewest copies, and among these the first in the order of choices. Where every plan that passes fits
on the way, that is the best plan of all.
-/

import RegisterChains.Proofs.Chain.Filling
import RegisterChains.Repair.Plan

namespace RegisterChains

open List

/-- The positions that choices for some registers lead to. -/
def slotsOf (regs : List Register) (choices : List Choice) : List Slot :=
  zipWith (fun r choice => choice.slot r) regs choices

namespace Search

open ChainGraph

variable {judge : List Slot → Except Conflict Fit} {ms early : List (Register × List Choice)}
  {search : Search} {plan chosen other : List Choice} {slots : List Slot} {cost least : Nat}

/-! ### Plans -/

/-- A plan passes if it makes one of the choices offered for each member and the positions they
lead to fit. -/
structure Passes (judge : List Slot → Except Conflict Fit)
    (members : List (Register × List Choice)) (plan : List Choice) : Prop where
  offered : List.Forall₂ (fun mem choice => choice ∈ mem.2) members plan
  fits : ∃ fit, judge (slotsOf (members.map Prod.fst) plan) = .ok fit

/-- The search comes to a plan if it makes choices that are offered, and the positions that they
lead to fit while the last ones are still undecided. -/
structure Survives (judge : List Slot → Except Conflict Fit)
    (members : List (Register × List Choice)) (plan : List Choice) : Prop where
  offered : List.Forall₂ (fun mem choice => choice ∈ mem.2) members plan
  fits : ∀ count < members.length,
    ∃ fit, judge (opened (count + 1) (slotsOf (members.map Prod.fst) plan)) = .ok fit

/-- How many copies a plan makes. -/
def copies (plan : List Choice) : Nat := plan.countP Choice.needsCopy

/-- Where the choices of a plan stand among those that are offered. -/
def ranks (ms : List (Register × List Choice)) (plan : List Choice) : List Nat :=
  zipWith (fun mem choice => mem.2.idxOf choice) ms plan

/-- A plan comes before another in the order of choices. -/
def Precedes (ms : List (Register × List Choice)) (plan other : List Choice) : Prop :=
  List.Lex (· < ·) (ranks ms plan) (ranks ms other)

/-- A plan makes the fewest copies of all that are eligible, and among those it comes first. -/
structure Best (members : List (Register × List Choice)) (eligible : List Choice → Prop)
    (plan : List Choice) : Prop where
  isEligible : eligible plan
  fewest : ∀ other, eligible other → copies plan ≤ copies other
  first : ∀ other, eligible other → copies other = copies plan →
    other = plan ∨ Precedes members plan other

/-- Nothing is found exactly if no plan passes, and what is found is the best plan. -/
structure Optimal (judge : List Slot → Except Conflict Fit)
    (members : List (Register × List Choice)) (best : Option (Nat × List Choice)) : Prop where
  none_iff : best = none ↔ ∀ plan, ¬ Passes judge members plan
  isBest : ∀ cost plan, best = some (cost, plan) →
    cost = copies plan ∧ Best members (Passes judge members) plan

theorem copies_concat (plan : List Choice) (choice : Choice) :
    copies (plan ++ [choice]) = copies plan + choice.cost := by
  unfold copies Choice.cost
  rw [countP_append, countP_singleton]
  cases choice.needsCopy <;> rfl

theorem copies_le_of_prefix (begins : plan <+: other) : copies plan ≤ copies other :=
    begins.countP_le

/-! ### What one part of the search does to the best plan -/

/-- Some plans have been looked at: either none of them beats the plan from before, or the best
of them takes its place. -/
inductive Picks (members : List (Register × List Choice)) (eligible : List Choice → Prop)
    (before after : Option (Nat × List Choice)) : Prop where
  | kept (same : after = before)
      (bounded : ∀ plan, eligible plan →
        ∃ least best, before = some (least, best) ∧ least ≤ copies plan)
  | found (plan : List Choice) (isBest : Best members eligible plan)
      (better : ∀ least best, before = some (least, best) → copies plan < least)
      (result : after = some (copies plan, plan))

namespace Picks

variable {eligible eligible' : List Choice → Prop} {pre mid post : Option (Nat × List Choice)}

theorem of_empty (none : ∀ plan, ¬ eligible plan) : Picks ms eligible pre pre :=
  .kept rfl fun plan isEligible => absurd isEligible (none plan)

theorem congr (same : ∀ plan, eligible plan ↔ eligible' plan) (picks : Picks ms eligible pre post) :
    Picks ms eligible' pre post := by
  have equal : eligible = eligible' := funext fun plan => propext (same plan)
  exact equal ▸ picks

/-- Plans that are looked at later do not come before those from earlier. -/
theorem union (first : Picks ms eligible pre mid) (second : Picks ms eligible' mid post)
    (later : ∀ plan one, eligible plan → eligible' one → eligible one ∨ Precedes ms plan one) :
    Picks ms (fun plan => eligible plan ∨ eligible' plan) pre post := by
  cases first with
  | kept same bounded =>
    subst same
    cases second with
    | kept same bounded' =>
      exact .kept same fun plan either => either.elim (bounded plan) (bounded' plan)
    | found plan isBest better result =>
      -- what was looked at first costs at least as much as the plan from before
      have dearer : ∀ one, eligible one → copies plan < copies one := by
        intro one isEligible
        obtain ⟨least, best, isBefore, atLeast⟩ := bounded one isEligible
        exact (better least best isBefore).trans_le atLeast
      refine .found plan ⟨.inr isBest.isEligible, ?_, ?_⟩ better result
      · rintro one (early | late)
        · exact (dearer one early).le
        · exact isBest.fewest one late
      · rintro one (early | late) equal
        · exact absurd equal (dearer one early).ne'
        · exact isBest.first one late equal
  | found plan isBest better result =>
    cases second with
    | kept same bounded =>
      have atLeast : ∀ one, eligible' one → copies plan ≤ copies one := by
        intro one isEligible
        obtain ⟨least, best, isMiddle, atLeast⟩ := bounded one isEligible
        cases result.symm.trans isMiddle
        exact atLeast
      refine .found plan ⟨.inl isBest.isEligible, ?_, ?_⟩ better (same.trans result)
      · exact fun one either => either.elim (isBest.fewest one) (atLeast one)
      · rintro one (early | late) equal
        · exact isBest.first one early equal
        · rcases later plan one isBest.isEligible late with early | inOrder
          · exact isBest.first one early equal
          · exact .inr inOrder
    | found plan' isBest' better' result' =>
      have cheaper := better' _ _ result
      have dearer : ∀ one, eligible one → copies plan' < copies one :=
        fun one early => cheaper.trans_le (isBest.fewest one early)
      refine .found plan' ⟨.inr isBest'.isEligible, ?_, ?_⟩ ?_ result'
      · rintro one (early | late)
        · exact (dearer one early).le
        · exact isBest'.fewest one late
      · rintro one (early | late) equal
        · exact absurd equal (dearer one early).ne'
        · exact isBest'.first one late equal
      · exact fun least best isBefore => cheaper.trans (better least best isBefore)

end Picks

/-! ### Plans that begin alike -/

section

variable {early rest : List (Register × List Choice)} {r : Register}
  {options : List Choice} {chosen : List Choice} {choice : Choice}

theorem opened_append (slots others : List Slot) :
    opened slots.length (slots ++ others) = slots ++ others.map fun _ => .undecided := by
  unfold opened
  rw [take_left, drop_left]

/-- What has not been decided does not matter. -/
theorem opened_append_congr {others : List Slot} (others' : List Slot) {count : Nat}
    (bound : count ≤ slots.length) (same : others.length = others'.length) :
    opened count (slots ++ others) = opened count (slots ++ others') := by
  unfold opened
  rw [take_append_of_le_length bound, take_append_of_le_length bound,
    drop_append_of_le_length bound, drop_append_of_le_length bound, map_const', map_const',
    length_append, length_append, same]

/-- The positions of a plan, with all members behind the next one left open. -/
theorem opened_slotsOf {others : List Choice} (sameLength : early.length = chosen.length)
    (sameLength' : rest.length = others.length) : opened (early.length + 1)
        (slotsOf ((early ++ (r, options) :: rest).map Prod.fst) (chosen ++ choice :: others)) =
      slotsOf (early.map Prod.fst) chosen ++ [choice.slot r] ++ rest.map fun _ => .undecided := by
  have split : slotsOf ((early ++ (r, options) :: rest).map Prod.fst)
      (chosen ++ choice :: others) = slotsOf (early.map Prod.fst) chosen ++
        [choice.slot r] ++ slotsOf (rest.map Prod.fst) others := by
    unfold slotsOf
    rw [map_append, zipWith_append (by rw [length_map, sameLength]), map_cons,
      zipWith_cons_cons, append_assoc, singleton_append]
  have length : (slotsOf (early.map Prod.fst) chosen ++ [choice.slot r]).length =
      early.length + 1 := by
    unfold slotsOf
    rw [length_append, length_zipWith, length_map, ← sameLength, Nat.min_self, length_singleton]
  have length' : (slotsOf (rest.map Prod.fst) others).length = rest.length := by
    unfold slotsOf
    rw [length_zipWith, length_map, ← sameLength', Nat.min_self]
  rw [split, ← length, opened_append, map_const', map_const', length']

/-- Among plans that begin alike, the next choice decides which comes first. -/
theorem precedes_of_idxOf_lt {choice' : Choice} (sameLength : early.length = chosen.length)
    (begins : chosen ++ [choice] <+: plan) (begins' : chosen ++ [choice'] <+: other)
    (pre : options.idxOf choice < options.idxOf choice') :
    Precedes (early ++ (r, options) :: rest) plan other := by
  obtain ⟨others, rfl⟩ := begins
  obtain ⟨others', rfl⟩ := begins'
  unfold Precedes ranks
  rw [append_assoc, append_assoc, zipWith_append sameLength,
    zipWith_append sameLength, singleton_append, singleton_append,
    zipWith_cons_cons, zipWith_cons_cons]
  exact List.Lex.append_left _ (.rel pre) _

end

/-! ### The whole search -/

/-- A plan that passes fits wherever the search stands on the way to it. -/
def Persists (judge : List Slot → Except Conflict Fit)
    (ms : List (Register × List Choice)) : Prop :=
  ∀ plan, Passes judge ms plan →
    ∀ count, ∃ fit, judge (opened count (slotsOf (ms.map Prod.fst) plan)) = .ok fit

theorem bounded_of_not_improves (worse : search.improves cost = false) :
    ∃ least best, search.best = some (least, best) ∧ least ≤ cost := by
  unfold improves at worse
  cases missing : search.best with
  | none =>
    rw [missing] at worse
    cases worse
  | some entry =>
    rw [missing] at worse
    exact ⟨entry.1, entry.2, rfl, by simpa using worse⟩

theorem bounded_of_settled (settled : search.settled = true) (cost : Nat) :
    ∃ least best, search.best = some (least, best) ∧ least ≤ cost := by
  obtain ⟨⟨least, best⟩, found, zero⟩ := (Option.any_eq_true _ _).mp settled
  have zero : least = 0 := by simpa using zero
  exact ⟨least, best, found, zero ▸ Nat.zero_le cost⟩

theorem lt_of_improves {best : List Choice} (improves : search.improves cost = true)
    (found : search.best = some (least, best)) : cost < least := by
  unfold Search.improves at improves
  rw [found] at improves
  exact of_decide_eq_true improves

/-- Choices for a member that are tried one after the other, of which some were tried before. -/
theorem picks_tries {rest : List (Register × List Choice)} {r : Register}
    {options tried tries : List Choice} {start : Search}
    (isWhole : ms = early ++ (r, options) :: rest) (sameLength : early.length = chosen.length)
    (isSlots : slots = slotsOf (early.map Prod.fst) chosen) (isOptions : options = tried ++ tries)
    (explored : ∀ choice ∈ options, ∀ fit search,
      judge (slots ++ [choice.slot r] ++ rest.map fun _ => .undecided) = .ok fit →
      Picks ms (fun plan => Survives judge ms plan ∧ chosen ++ [choice] <+: plan)
        search.best (explore judge rest (chosen ++ [choice]) (slots ++ [choice.slot r])
          (cost + choice.cost) search).best) (sofar : Picks ms
      (fun plan => ∃ choice ∈ tried, Survives judge ms plan ∧ chosen ++ [choice] <+: plan)
      start.best search.best) : Picks ms
      (fun plan => ∃ choice ∈ options, Survives judge ms plan ∧ chosen ++ [choice] <+: plan)
      start.best (tries.foldl (fun search choice => if search.settled then search else
          let decided := slots ++ [choice.slot r]
          let cand := decided ++ rest.map fun _ => .undecided
          match judge cand with
          | .ok _ => explore judge rest (chosen ++ [choice]) decided (cost + choice.cost) search
          | .error conflict => search.reject cand conflict) search).best := by
  induction tries generalizing tried search with
  | nil =>
    rw [append_nil] at isOptions
    subst isOptions
    exact sofar
  | cons choice later ih =>
    rw [foldl_cons]
    refine ih (isOptions.trans (append_cons tried choice later)) ?_
    have inOrder : ∀ plan other,
        (∃ one ∈ tried, Survives judge ms plan ∧ chosen ++ [one] <+: plan) →
        Survives judge ms other ∧ chosen ++ [choice] <+: other →
        (∃ one ∈ tried, Survives judge ms other ∧ chosen ++ [one] <+: other) ∨
        Precedes ms plan other := by
      rintro plan other ⟨one, isTried, _, begins⟩ ⟨passes, begins'⟩
      by_cases again : choice ∈ tried
      · exact .inl ⟨choice, again, passes, begins'⟩
      · refine .inr (isWhole ▸ precedes_of_idxOf_lt sameLength begins begins' ?_)
        rw [isOptions, idxOf_append_of_mem isTried, idxOf_append_of_notMem again]
        exact (idxOf_lt_length_of_mem isTried).trans_le (Nat.le_add_right _ _)
    refine (sofar.union ?_ inOrder).congr ?_
    · split
      · next settled => exact .kept rfl fun plan _ => bounded_of_settled settled (copies plan)
      · simp only
        split
        · next fit fits =>
          exact explored choice (isOptions ▸ mem_append_cons_self) fit _ fits
        · next conflict rejected =>
          refine .of_empty ?_
          rintro plan ⟨passes, others, rfl⟩
          obtain ⟨fit, fits⟩ := passes.fits early.length (by simp [isWhole])
          rw [isWhole, append_assoc, singleton_append, opened_slotsOf sameLength ?_,
            ← isSlots, rejected] at fits
          · cases fits
          · have whole := passes.offered.length_eq
            rw [isWhole, length_append, length_append, length_append, sameLength,
              length_cons, length_singleton] at whole
            omega
    · intro plan
      simp only [mem_append, mem_singleton, or_and_right, exists_or, exists_eq_left]

/-- Exploring what is left of a plan picks the best of the plans that begin with what was
chosen. -/
theorem picks_explore {late : List (Register × List Choice)} (isWhole : ms = early ++ late)
    (offered : List.Forall₂ (fun mem choice => choice ∈ mem.2) early chosen)
    (isSlots : slots = slotsOf (early.map Prod.fst) chosen) (isCost : cost = copies chosen)
    (fits : ∀ count < early.length,
      ∃ fit, judge (opened (count + 1) (slots ++ late.map fun _ => .undecided)) = .ok fit) :
    Picks ms (fun plan => Survives judge ms plan ∧ chosen <+: plan) search.best
      (explore judge late chosen slots cost search).best := by
  induction late generalizing early chosen slots cost search with
  | nil =>
    rw [append_nil] at isWhole
    subst isWhole
    have alone : ∀ plan, Survives judge ms plan ∧ chosen <+: plan → plan = chosen := by
      rintro plan ⟨passes, begins⟩
      exact (begins.eq_of_length (offered.length_eq.symm.trans passes.offered.length_eq)).symm
    unfold explore
    split
    · next improves =>
      rw [map_nil, append_nil, isSlots] at fits
      refine .found chosen ⟨⟨⟨offered, fits⟩, prefix_rfl⟩, ?_, ?_⟩ ?_ (by rw [isCost])
      · exact fun one isEligible => (alone one isEligible ▸ Nat.le_refl _)
      · exact fun one isEligible _ => .inl (alone one isEligible)
      · exact fun least best found => isCost ▸ lt_of_improves improves found
    · next worse =>
      refine .kept rfl fun plan isEligible => ?_
      rw [alone plan isEligible, ← isCost]
      exact bounded_of_not_improves (by simpa using worse)
  | cons mem rest ih =>
    obtain ⟨r, options⟩ := mem
    unfold explore
    split
    · refine (picks_tries isWhole offered.length_eq isSlots (nil_append options).symm ?_
        (.of_empty ?_)).congr ?_
      · intro choice isMem fit search judged
        refine ih (isWhole.trans (append_cons early _ rest))
          (rel_append offered (.cons isMem .nil)) ?_ ?_ ?_
        · rw [isSlots]
          unfold slotsOf
          rw [map_append, zipWith_append (by rw [length_map, offered.length_eq])]
          rfl
        · rw [isCost, copies_concat]
        · intro count bound
          rw [length_append, length_singleton] at bound
          have length : slots.length = early.length := by
            rw [isSlots, slotsOf, length_zipWith, length_map, offered.length_eq, Nat.min_self]
          rcases Nat.lt_succ_iff_lt_or_eq.mp bound with inside | rfl
          · rw [append_assoc, opened_append_congr (((r, options) :: rest).map fun _ => .undecided)
              (length ▸ inside) (by simp)]
            exact fits count inside
          · have whole : (slots ++ [choice.slot r]).length = early.length + 1 := by
              rw [length_append, length, length_singleton]
            rw [← whole, opened_append, map_map]
            exact ⟨fit, judged⟩
      · rintro plan ⟨_, no, _⟩
        cases no
      · intro plan
        constructor
        · rintro ⟨choice, _, passes, begins⟩
          exact ⟨passes, (prefix_append chosen [choice]).trans begins⟩
        · rintro ⟨passes, others, rfl⟩
          have remaining := forall₂_drop_append ms chosen others passes.offered
          rw [isWhole, ← offered.length_eq, drop_left] at remaining
          cases remaining with
          | cons isMem _ =>
            exact ⟨_, isMem, passes, _, (append_cons chosen _ _).symm⟩
    · next worse =>
      refine .kept rfl ?_
      rintro plan ⟨_, begins⟩
      obtain ⟨least, best, found, atMost⟩ := bounded_of_not_improves (by simpa using worse)
      exact ⟨least, best, found, atMost.trans (isCost ▸ copies_le_of_prefix begins)⟩

/-- A search picks the best of the plans that it comes to. -/
theorem picks_run (judge : List Slot → Except Conflict Fit) (ms : List (Register × List Choice)) :
    Picks ms (Survives judge ms) none (run judge ms).best := by
  have picks : Picks ms (fun plan => Survives judge ms plan ∧ [] <+: plan) start.best
      (run judge ms).best :=
    picks_explore (nil_append ms).symm .nil rfl rfl fun _ no => absurd no (Nat.not_lt_zero _)
  exact picks.congr fun plan => and_iff_left nil_prefix

/-- The search comes to the plan that it finds. -/
theorem survives_of_run (best : (run judge ms).best = some (least, plan)) :
    Survives judge ms plan := by
  cases picks_run judge ms with
  | kept same _ => cases same.symm.trans best
  | found plan isBest _ result =>
    cases result.symm.trans best
    exact isBest.isEligible

theorem Survives.passes (some : ms ≠ []) (survives : Survives judge ms plan) :
    Passes judge ms plan := by
  obtain ⟨fit, fits⟩ := survives.fits (ms.length - 1)
    (Nat.sub_one_lt_of_lt (length_pos_iff.mpr some))
  have length : (slotsOf (ms.map Prod.fst) plan).length = ms.length - 1 + 1 := by
    rw [Nat.sub_add_cancel (length_pos_iff.mpr some), slotsOf, length_zipWith, length_map,
      survives.offered.length_eq, Nat.min_self]
  rw [← length, opened, take_length, drop_length, map_nil, append_nil] at fits
  exact ⟨survives.offered, fit, fits⟩

/-- A search finds the best plan, if there is one. -/
theorem optimal_run (some : ms ≠ []) (persists : Persists judge ms) :
    Optimal judge ms (run judge ms).best := by
  have picks : Picks ms (Passes judge ms) none (run judge ms).best :=
    (picks_run judge ms).congr fun plan => ⟨Survives.passes some,
      fun passes => ⟨passes.offered, fun _ _ => persists plan passes _⟩⟩
  cases picks with
  | kept same bounded =>
    refine ⟨iff_of_true same fun plan passes => ?_, fun cost plan isFound => ?_⟩
    · obtain ⟨_, _, no, _⟩ := bounded plan passes
      cases no
    · cases same.symm.trans isFound
  | found plan isBest better result =>
    refine ⟨iff_of_false (by rw [result]; exact Option.some_ne_none _)
      fun none => none plan isBest.isEligible, fun cost one isFound => ?_⟩
    cases result.symm.trans isFound
    exact ⟨rfl, isBest⟩

end Search

end RegisterChains

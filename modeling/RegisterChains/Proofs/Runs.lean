/-
This file is about lists that follow a relation of which every element has at most one
successor and at most one predecessor. A list that cannot be extended at either end is the
whole run of each of its elements: no element is in it twice, and no other such list shares
an element with it. A relation with fewer pairs cuts runs into pieces, and one more pair
joins two of them.
-/

import Mathlib.Data.List.Chain
import Mathlib.Data.List.Nodup
import Mathlib.Data.List.SplitBy
import Mathlib.Logic.Relator

namespace RegisterChains

open List

variable {α : Type} {pre : List α} {elem : α}

theorem lt_of_getElem? {list : List α} {i : Nat} (placed : list[i]? = some elem) :
    i < list.length :=
  (List.getElem?_eq_some_iff.mp placed).1

theorem idxOf_eq_of_getElem? [DecidableEq α] {list : List α} (distinct : list.Nodup) {i : Nat}
    (placed : list[i]? = some elem) : list.idxOf elem = i := by
  obtain ⟨bound, rfl⟩ := List.getElem?_eq_some_iff.mp placed
  exact distinct.idxOf_getElem i bound

theorem index_unique [DecidableEq α] {list : List α} (distinct : list.Nodup) {i i' : Nat}
    (placed : list[i]? = some elem) (placed' : list[i']? = some elem) : i = i' := by
  rw [← idxOf_eq_of_getElem? distinct placed, ← idxOf_eq_of_getElem? distinct placed']

theorem append_cons_inj {post front back : List α} (distinct : (front ++ elem :: back).Nodup)
    (same : pre ++ elem :: post = front ++ elem :: back) : pre = front ∧ post = back := by
  rw [← same] at distinct
  obtain ⟨_, distinctRest, apart⟩ := nodup_append.mp distinct
  have absent : elem ∉ pre :=
    fun mem => apart elem mem elem mem_cons_self rfl
  have absent' : elem ∉ post := (nodup_cons.mp distinctRest).1
  obtain ⟨eq, _, rest⟩ := (append_cons_inj_of_notMem absent absent').mp same
  exact ⟨eq, rest⟩

/-- What a relation keeps is the same all along a list that follows it. -/
theorem eq_of_isChain {β : Type} {relation : α → α → Prop} {label : α → β} {ms : List α}
    (linked : ms.IsChain relation) (same : ∀ a b, relation a b → label a = label b) {other : α}
    (mem : elem ∈ ms) (mem' : other ∈ ms) : label elem = label other := by
  have pairwise : ms.Pairwise fun a b => label a = label b :=
    isChain_iff_pairwise.mp (linked.imp same)
  have symmetric : Std.Symm fun a b => label a = label b := ⟨fun _ _ => Eq.symm⟩
  by_cases apart : elem = other
  · rw [apart]
  · exact pairwise.forall mem mem' apart

/-- The test fails at either end of a piece of a list that is split by it. -/
theorem exists_of_mem_splitBy {test : α → α → Bool} {ms piece : List α}
    (isMem : piece ∈ ms.splitBy test) : ∃ left right, ms = left ++ piece ++ right ∧
      (∀ first ∈ left.getLast?, ∀ second ∈ piece.head?, test first second = false) ∧
      ∀ first ∈ piece.getLast?, ∀ second ∈ right.head?, test first second = false := by
  obtain ⟨earlier, later, split⟩ := append_of_mem isMem
  have whole := flatten_splitBy test ms
  have ends := isChain_getLast_head_splitBy test ms
  have filled : ∀ one ∈ earlier ++ piece :: later, one ≠ [] := fun one mem =>
    ne_nil_of_mem_splitBy (split ▸ mem)
  rw [split] at whole ends
  refine ⟨earlier.flatten, later.flatten, by simp [← whole], ?_, ?_⟩
  · intro first final second starts
    cases earlier using reverseRecOn with
    | nil => cases final
    | append_singleton front last =>
      rw [flatten_concat, getLast?_append_of_ne_nil _ (filled last (by simp))] at final
      rw [append_assoc, singleton_append] at ends
      obtain ⟨_, _, fails⟩ := (isChain_append_cons_cons.mp ends).2.1
      rwa [getLast_of_mem_getLast? final, head_of_mem_head? starts] at fails
  · intro first final second starts
    cases later with
    | nil => cases starts
    | cons next rest =>
      rw [flatten_cons, head?_append_of_ne_nil _ (filled next (by simp))] at starts
      obtain ⟨_, _, fails⟩ := (isChain_append_cons_cons.mp ends).2.1
      rwa [getLast_of_mem_getLast? final, head_of_mem_head? starts] at fails

/-- A list that follows a relation and cannot be extended at either end. -/
structure IsRun (relation : α → α → Prop) (members : List α) : Prop where
  nonempty : members ≠ []
  linked : members.IsChain relation
  first : ∀ elem ∈ members.head?, ∀ before, ¬ relation before elem
  last : ∀ elem ∈ members.getLast?, ∀ after, ¬ relation elem after

namespace IsRun

variable {relation fewer : α → α → Prop} {ms others rest post : List α} {elem : α}

/-! ### Runs are disjoint -/

/-- No element is in a run twice: from two places of one element, one could go back in step
until one of them is the first place, which nothing precedes. -/
theorem nodup (leftUnique : Relator.LeftUnique relation) (run : IsRun relation ms) : ms.Nodup := by
  rw [nodup_iff_getElem?_ne_getElem?]
  intro early
  induction early with
  | zero =>
    intro late order bound same
    obtain ⟨previous, rfl⟩ : ∃ previous, late = previous + 1 := ⟨late - 1, by omega⟩
    have link := run.linked.getElem previous bound
    refine run.first ms[previous + 1] ?_ _ link
    rw [head?_eq_getElem?, same, getElem?_eq_getElem bound]
    rfl
  | succ early ih =>
    intro late order bound same
    obtain ⟨previous, rfl⟩ : ∃ previous, late = previous + 1 := ⟨late - 1, by omega⟩
    have earlyBound : early + 1 < ms.length := by omega
    refine ih previous (by omega) (by omega) ?_
    rw [getElem?_eq_getElem earlyBound, getElem?_eq_getElem bound, Option.some_inj] at same
    have earlyLink := run.linked.getElem early earlyBound
    have lateLink := run.linked.getElem previous bound
    rw [same] at earlyLink
    rw [getElem?_eq_getElem (by omega), getElem?_eq_getElem (by omega),
      leftUnique earlyLink lateLink]

/-- What follows an element up to where nothing follows is determined. -/
theorem rest_unique (rightUnique : Relator.RightUnique relation) {rest' : List α}
    (linked : (elem :: rest).IsChain relation)
    (last : ∀ x ∈ (elem :: rest).getLast?, ∀ after, ¬ relation x after)
    (linked' : (elem :: rest').IsChain relation)
    (last' : ∀ x ∈ (elem :: rest').getLast?, ∀ after, ¬ relation x after) : rest = rest' := by
  induction rest generalizing elem rest' with
  | nil =>
    cases rest' with
    | nil => rfl
    | cons next tail => exact absurd linked'.rel (last elem rfl next)
  | cons next tail ih =>
    cases rest' with
    | nil => exact absurd linked.rel (last' elem rfl next)
    | cons next' tail' =>
      obtain rfl : next = next' := rightUnique linked.rel linked'.rel
      rw [getLast?_cons_cons] at last last'
      exact congrArg (next :: ·) (ih linked.of_cons last linked'.of_cons last')

/-- The same run read backwards follows the relation backwards. -/
theorem reverse (run : IsRun relation ms) : IsRun (fun b a => relation a b) ms.reverse where
  nonempty := by simpa using run.nonempty
  linked := isChain_reverse.mpr run.linked
  first := by
    rw [head?_reverse]
    exact run.last
  last := by
    rw [getLast?_reverse]
    exact run.first

theorem drop (run : IsRun relation ms) (split : ms = pre ++ elem :: post) :
    (elem :: post).IsChain relation ∧
      ∀ x ∈ (elem :: post).getLast?, ∀ next, ¬ relation x next := by
  subst split
  refine ⟨run.linked.right_of_append, fun x mem => run.last x ?_⟩
  rw [getLast?_append_of_ne_nil _ (cons_ne_nil _ _)]
  exact mem

/-- Two runs that share an element are the same. -/
theorem eq_of_mem (leftUnique : Relator.LeftUnique relation)
    (rightUnique : Relator.RightUnique relation) (run : IsRun relation ms)
    (run' : IsRun relation others) (mem : elem ∈ ms) (mem' : elem ∈ others) : ms = others := by
  obtain ⟨pre, post, split⟩ := append_of_mem mem
  obtain ⟨pre', post', split'⟩ := append_of_mem mem'
  have following : post = post' :=
    rest_unique rightUnique (run.drop split).1 (run.drop split).2 (run'.drop split').1
      (run'.drop split').2
  have backwards : ms.reverse = post.reverse ++ elem :: pre.reverse := by
    rw [split]
    simp
  have backwards' : others.reverse = post'.reverse ++ elem :: pre'.reverse := by
    rw [split']
    simp
  have flipped : Relator.RightUnique fun b a => relation a b :=
    fun _ _ _ one other => leftUnique one other
  have preceding : pre.reverse = pre'.reverse :=
    rest_unique flipped (run.reverse.drop backwards).1 (run.reverse.drop backwards).2
      (run'.reverse.drop backwards').1 (run'.reverse.drop backwards').2
  rw [split, split', following, reverse_injective preceding]

/-- An element of a run is alone in it, or has a neighbour. -/
theorem alone_or_related (run : IsRun relation ms) (mem : elem ∈ ms) :
    ms = [elem] ∨ (∃ next, relation elem next) ∨ ∃ previous, relation previous elem := by
  obtain ⟨pre, post, rfl⟩ := append_of_mem mem
  cases post with
  | cons next rest =>
    exact .inr (.inl ⟨next, (isChain_append_cons_cons.mp run.linked).2.1⟩)
  | nil =>
    cases pre using reverseRecOn with
    | nil => exact .inl rfl
    | append_singleton front previous =>
      have linked := run.linked
      rw [append_assoc, singleton_append] at linked
      exact .inr (.inr ⟨previous, (isChain_append_cons_cons.mp linked).2.1⟩)

/-- What follows an element of a run is the next element of it. -/
theorem split_of_next (rightUnique : Relator.RightUnique relation) (run : IsRun relation ms)
    {next : α} (mem : elem ∈ ms) (link : relation elem next) :
    ∃ pre post, ms = pre ++ elem :: next :: post := by
  obtain ⟨pre, post, rfl⟩ := append_of_mem mem
  cases post with
  | nil => exact absurd link (run.last elem (by simp) next)
  | cons following rest =>
    obtain rfl : following = next := rightUnique (isChain_append_cons_cons.mp run.linked).2.1 link
    exact ⟨pre, rest, rfl⟩

/-- What precedes an element of a run is the element before it. -/
theorem split_of_previous (leftUnique : Relator.LeftUnique relation) (run : IsRun relation ms)
    {previous : α} (mem : elem ∈ ms) (link : relation previous elem) :
    ∃ pre post, ms = pre ++ previous :: elem :: post := by
  obtain ⟨pre, post, rfl⟩ := append_of_mem mem
  cases pre using reverseRecOn with
  | nil => exact absurd link (run.first elem rfl previous)
  | append_singleton front last =>
    have linked := run.linked
    rw [append_assoc, singleton_append] at linked ⊢
    obtain rfl : last = previous := leftUnique (isChain_append_cons_cons.mp linked).2.1 link
    exact ⟨front, post, rfl⟩

/-! ### Changing the relation -/

/-- A run stays one if nothing changes about the pairs of its elements. -/
theorem congr {relation' : α → α → Prop} (run : IsRun relation ms)
    (agree : ∀ elem ∈ ms, ∀ next, relation' elem next ↔ relation elem next)
    (pre : ∀ elem ∈ ms, ∀ previous, relation' previous elem ↔ relation previous elem) :
    IsRun relation' ms where
  nonempty := run.nonempty
  linked := run.linked.imp_of_mem_imp fun first second mem _ link =>
    (agree first mem second).mpr link
  first elem head previous link :=
    run.first elem head previous ((pre elem (mem_of_mem_head? head) previous).mp link)
  last elem final next link :=
    run.last elem final next ((agree elem (mem_of_mem_getLast? final) next).mp link)

/-- With fewer pairs, what follows an element ends no later. -/
theorem exists_front (rightUnique : Relator.RightUnique relation)
    (sub : ∀ a b, fewer a b → relation a b) (linked : (elem :: rest).IsChain relation)
    (last : ∀ x ∈ (elem :: rest).getLast?, ∀ after, ¬ relation x after) :
    ∃ front back, rest = front ++ back ∧ (elem :: front).IsChain fewer ∧
      ∀ x ∈ (elem :: front).getLast?, ∀ after, ¬ fewer x after := by
  induction rest generalizing elem with
  | nil =>
    refine ⟨[], [], rfl, isChain_singleton elem, fun x final next link => ?_⟩
    exact last x final next (sub _ _ link)
  | cons next tail ih =>
    by_cases kept : fewer elem next
    · rw [getLast?_cons_cons] at last
      obtain ⟨front, back, split, linked', last'⟩ := ih linked.of_cons last
      refine ⟨next :: front, back, by rw [split]; rfl, linked'.cons_cons kept, ?_⟩
      rw [getLast?_cons_cons]
      exact last'
    · refine ⟨[], next :: tail, rfl, isChain_singleton elem, fun x final after link => ?_⟩
      obtain rfl : elem = x := Option.some_inj.mp final
      obtain rfl : after = next := rightUnique (sub _ _ link) linked.rel
      exact kept link

section

variable (leftUnique : Relator.LeftUnique relation)

include leftUnique

/-- With fewer pairs, each element of a run is in a run of its own, a part of the old one. -/
theorem exists_part (rightUnique : Relator.RightUnique relation)
    (sub : ∀ a b, fewer a b → relation a b) (run : IsRun relation (pre ++ elem :: post)) :
    ∃ left front right back, pre = left ++ front ∧ post = right ++ back ∧
      IsRun fewer (front ++ elem :: right) := by
  obtain ⟨right, back, afterSplit, forwards, last⟩ :=
    exists_front rightUnique sub (run.drop rfl).1 (run.drop rfl).2
  have mirrored : (pre ++ elem :: post).reverse = post.reverse ++ elem :: pre.reverse := by simp
  have flipped : Relator.RightUnique fun b a => relation a b :=
    fun _ _ _ one other => leftUnique one other
  have flippedSub : ∀ b a, (fun b a => fewer a b) b a →
      (fun b a => relation a b) b a := fun _ _ => sub _ _
  obtain ⟨front, left, beforeSplit, backwards, isLast⟩ :=
    exists_front flipped flippedSub (run.reverse.drop mirrored).1 (run.reverse.drop mirrored).2
  refine ⟨left.reverse, front.reverse, right, back, ?_, afterSplit, ?_⟩
  · rw [← reverse_append, ← beforeSplit, reverse_reverse]
  · have turned : (elem :: front).reverse = front.reverse ++ [elem] := by simp
    refine ⟨by simp, ?_, ?_, ?_⟩
    · have ahead : (front.reverse ++ [elem]).IsChain fewer := by
        rw [← turned]
        exact isChain_reverse.mpr backwards
      exact isChain_split.mpr ⟨ahead, forwards⟩
    · intro x head previous link
      refine isLast x ?_ previous link
      rw [← head?_reverse, turned]
      cases reversed : front.reverse with
      | nil | cons one rest =>
        rw [reversed] at head
        exact head
    · rw [getLast?_append_of_ne_nil _ (cons_ne_nil _ _)]
      exact last

theorem eq_of_mem_of_imp (rightUnique : Relator.RightUnique relation)
    (sub : ∀ a b, fewer a b → relation a b) (part : IsRun fewer ms) (part' : IsRun fewer others)
    (mem : elem ∈ ms) (mem' : elem ∈ others) : ms = others := by
  have leftUnique' : Relator.LeftUnique fewer := fun _ _ _ one two =>
    leftUnique (sub _ _ one) (sub _ _ two)
  have rightUnique' : Relator.RightUnique fewer := fun _ _ _ one two =>
    rightUnique (sub _ _ one) (sub _ _ two)
  exact part.eq_of_mem leftUnique' rightUnique' part' mem mem'

/-- With fewer pairs, a run is a part of the old one that it shares an element with. -/
theorem isInfix_of_mem (rightUnique : Relator.RightUnique relation)
    (sub : ∀ a b, fewer a b → relation a b) (run : IsRun relation ms) (part : IsRun fewer others)
    (mem : elem ∈ ms) (mem' : elem ∈ others) : others <:+: ms := by
  obtain ⟨pre, post, rfl⟩ := append_of_mem mem
  obtain ⟨left, front, right, back, rfl, rfl, own⟩ := run.exists_part leftUnique rightUnique sub
  rw [part.eq_of_mem_of_imp leftUnique rightUnique sub own mem' mem_append_cons_self]
  exact ⟨left, back, by simp⟩

end

section Splitting

variable {fewer : α → α → Prop} {keep : α → Bool} {piece : List α}

section

variable (leftUnique : Relator.LeftUnique relation) (rightUnique : Relator.RightUnique relation)
  (run : IsRun relation ms) (sub : ∀ a b, fewer a b → relation a b)
  (kept : ∀ first ∈ ms, ∀ second, relation first second → (fewer first second ↔ keep first = true))

include leftUnique rightUnique run sub kept

/-- Where a relation keeps the pairs of some elements only, a run is split behind the others. -/
theorem splitBy (isMem : piece ∈ ms.splitBy fun first _ => keep first) : IsRun fewer piece := by
  obtain ⟨left, right, split, pre, post⟩ := exists_of_mem_splitBy isMem
  have distinct := run.nodup leftUnique
  have within : ∀ elem ∈ piece, elem ∈ ms := by
    intro elem mem
    simp [split, mem]
  refine ⟨ne_nil_of_mem_splitBy isMem, ?_, ?_, ?_⟩
  · have related : piece.IsChain relation := run.linked.infix ⟨left, right, split.symm⟩
    have holds := isChain_of_mem_splitBy isMem
    rw [isChain_iff_getElem] at related holds ⊢
    intro i bound
    exact (kept _ (within _ (getElem_mem _)) _ (related i bound)).mpr (holds i bound)
  · intro elem starts previous link
    obtain ⟨rest, rfl⟩ := head?_eq_some_iff.mp starts
    obtain ⟨front, back, split'⟩ := run.split_of_previous leftUnique
      (within elem mem_cons_self) (sub _ _ link)
    have same : (front ++ [previous]) ++ elem :: back = left ++ elem :: (rest ++ right) := by
      simpa using split'.symm.trans split
    rw [split, append_assoc, cons_append] at distinct
    have final : left.getLast? = some previous := by
      rw [← (append_cons_inj distinct same).1]
      simp
    have fails := pre previous final elem rfl
    rw [(kept previous (by simp [split']) elem (sub _ _ link)).mp link] at fails
    cases fails
  · intro elem ends next link
    obtain ⟨init, rfl⟩ := getLast?_eq_some_iff.mp ends
    obtain ⟨front, back, split'⟩ := run.split_of_next rightUnique (within elem (by simp))
      (sub _ _ link)
    have same : front ++ elem :: next :: back = (left ++ init) ++ elem :: right := by
      simpa using split'.symm.trans split
    have whole : ms = (left ++ init) ++ elem :: right := by simpa using split
    rw [whole] at distinct
    have starts : right.head? = some next := by
      rw [← (append_cons_inj distinct same).2]
      rfl
    have fails := post elem (by simp) next starts
    rw [(kept elem (within elem (by simp)) next (sub _ _ link)).mp link] at fails
    cases fails

/-- The pieces are all runs of the smaller relation that there are on the old run. -/
theorem mem_splitBy (part : IsRun fewer piece) (mem : elem ∈ piece) (mem' : elem ∈ ms) :
    piece ∈ ms.splitBy fun first _ => keep first := by
  rw [← flatten_splitBy (fun first _ => keep first) ms, mem_flatten] at mem'
  obtain ⟨one, isMem, shared⟩ := mem'
  have isRun : IsRun fewer one := run.splitBy leftUnique rightUnique sub kept isMem
  exact part.eq_of_mem_of_imp leftUnique rightUnique sub isRun mem shared ▸ isMem

end

end Splitting

/-- One more pair, from the last element of a run to the first of another, joins the two. -/
theorem append {more : α → α → Prop} (run : IsRun relation ms) (run' : IsRun relation others)
    {lastElement firstElement : α} (final : ms.getLast? = some lastElement)
    (head : others.head? = some firstElement)
    (joined : ∀ first second, more first second ↔ relation first second ∨
      (first = lastElement ∧ second = firstElement))
    (leads : ∀ elem ∈ ms.head?, elem ≠ firstElement)
    (trails : ∀ elem ∈ others.getLast?, elem ≠ lastElement) : IsRun more (ms ++ others) where
  nonempty := append_ne_nil_of_left_ne_nil run.nonempty others
  linked := by
    refine List.IsChain.append (run.linked.imp fun _ _ link => (joined _ _).mpr (.inl link))
      (run'.linked.imp fun _ _ link => (joined _ _).mpr (.inl link)) ?_
    intro x xFinal y yHead
    rw [final] at xFinal
    rw [head] at yHead
    exact (joined x y).mpr (.inr ⟨(Option.some_inj.mp xFinal).symm,
      (Option.some_inj.mp yHead).symm⟩)
  first elem starts previous link := by
    rw [head?_append_of_ne_nil _ run.nonempty] at starts
    rcases (joined previous elem).mp link with old | ⟨_, same⟩
    · exact run.first elem starts previous old
    · exact leads elem starts same
  last elem ends next link := by
    rw [getLast?_append_of_ne_nil _ run'.nonempty] at ends
    rcases (joined elem next).mp link with old | ⟨same, _⟩
    · exact run'.last elem ends next old
    · exact trails elem ends same

end IsRun

end RegisterChains

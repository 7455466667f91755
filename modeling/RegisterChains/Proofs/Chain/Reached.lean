/-
This file is about the graphs that come up in practice: the descriptors of a program are
seeded, then candidates that were judged to fit are committed one after the other. In all of
them chains fit their banks. A candidate is judged as a whole, against the bank of all the
chains it touches, but it is committed link by link, and a beginning of it that touches no
pinned register is still among the temporaries. So a candidate that fits can be committed
exactly if each of its beginnings fits too. For the same reason a candidate with undecided
places can be rejected too early, if what will stand there is of a bank with more room.

It is also said how long a chain can get, whatever is asked of a graph that was seeded. A chain
with a pin fits its bank, and all its pins are in one bank. A chain without pins is among the
temporaries, and it fits them as long as it is only linked. But links are cut, and one piece of a
chain that fitted its bank because of a pin can be left without that pin. Such a piece is shorter
than the bank allows, by the pin at least, and it need not fit the temporaries.
-/

import RegisterChains.Proofs.Chain.Merging
import RegisterChains.Proofs.ClosingCheck

namespace RegisterChains

open ChainGraph MachineSpec Seeding

namespace ChainGraph

variable {graph : ChainGraph}

/-- The graphs that are reached from the empty one by seeding descriptors of a program and
then committing candidates that fit. -/
inductive Reached : ChainGraph → Prop where
  | seeded {target : Target} {prog : Program} {allowed : Instruction → Prop}
      {bindings : List BindingId} {pass : Pass} :
    prog.Built allowed → (∀ bank, 1 ≤ target.limits.get bank) →
    (seedEach bindings).Yields (.start target prog) () pass → Reached pass.graph
  | committed {g : ChainGraph} (regs : List Register) {parity : Parity} (fit : Fit)
      (viaInst : Bool) :
    Reached g → g.fitOperands regs parity = .ok fit →
    Reached ((commit regs fit.parity viaInst).leaves g)

/-- Whatever was seeded and committed, the links and parities are right and chains fit. -/
theorem Reached.sound_bounded (reached : Reached graph) : graph.Sound ∧ graph.Bounded := by
  induction reached with
  | seeded built roomy ran =>
    obtain ⟨consistent, _, _, limits, _⟩ :=
      seedEach_yields (consistent_start built.closed) ran
    refine ⟨consistent.pinned.sound, consistent.pinned.bounded fun bank => ?_⟩
    rw [limit, limits]
    exact roomy bank
  | committed regs fit via _ _ ih =>
    obtain ⟨sound, bounded⟩ := ih
    have evolves := sound.evolves_commit regs fit.parity via
    exact ⟨evolves.sound, evolves.bounded bounded⟩

/-- A candidate that fits can be committed exactly if every beginning of it fits. -/
theorem Reached.commit_ends_iff (reached : Reached graph) {registers : List Register}
    {parity : Parity} {fit : Fit} (fits : graph.fitOperands registers parity = .ok fit)
    (viaInstruction : Bool) :
    (∃ after, (commit registers fit.parity viaInstruction).Yields graph () after) ↔
      ∀ count, count ≤ registers.length →
        ∃ beginning, graph.fitOperands (registers.take count) parity = .ok beginning :=
  reached.sound_bounded.1.commit_iff_fits reached.sound_bounded.2 fits viaInstruction

/-! ### One register among the attributes -/

/-- A program that has nothing but one register, which the hardware writes among the
attributes. -/
def inputOnly : Program :=
  (Program.declare (.input .primary none [.temp 6])).leaves (.empty "main")

/-- The constraints on that program on the standard target. -/
def inputGraph : ChainGraph :=
  (seedAll.leaves (.start standard.target inputOnly)).graph

theorem reached_inputGraph : Reached inputGraph := by
  have declares : (Program.declare (.input .primary none [.temp 6])).Yields
      (.empty "main") ⟨0⟩ inputOnly := ⟨rfl, rfl⟩
  have built : inputOnly.Built fun _ => True := .declare (.empty "main") declares
  have roomy : ∀ bank, 1 ≤ standard.target.limits.get bank := by
    intro bank
    cases bank <;> decide
  have seeds : (seedEach [⟨0⟩]).Yields (.start standard.target inputOnly) ()
      (seedAll.leaves (.start standard.target inputOnly)) := ⟨rfl, rfl⟩
  exact .seeded built roomy seeds

/-- Four registers of which the last is an attribute can be committed. -/
theorem commit_ends_before_input :
    ∃ fit, inputGraph.fitOperands ([3, 4, 5, 6].map .temp) .any = .ok fit ∧
      ∃ after, (commit ([3, 4, 5, 6].map .temp) fit.parity true).Yields inputGraph () after := by
  refine ⟨_, rfl, (reached_inputGraph.commit_ends_iff rfl true).mpr fun count bound => ?_⟩
  match count, bound with
  | 0, _ => exact ⟨_, rfl⟩
  | 1, _ => exact ⟨_, rfl⟩
  | 2, _ => exact ⟨_, rfl⟩
  | 3, _ => exact ⟨_, rfl⟩
  | 4, _ => exact ⟨_, rfl⟩
  | count + 5, long => exact absurd long (by simp)

/-- Six registers of which the last is an attribute fit among the eight attributes. The
first five are linked before that is seen, and are too many for temporaries. -/
theorem fits_without_commit : Reached inputGraph ∧
      ∃ fit, inputGraph.fitOperands ([1, 2, 3, 4, 5, 6].map .temp) .any = .ok fit ∧
        ¬ ∃ after, (commit ([1, 2, 3, 4, 5, 6].map .temp) fit.parity true).Yields
          inputGraph () after := by
  refine ⟨reached_inputGraph, _, rfl, ?_⟩
  rintro ⟨after, ended, _⟩
  have refused : ((commit ([1, 2, 3, 4, 5, 6].map .temp) .any true) inputGraph).result =
      .error (.error (.internal (.commitLink (.temp 5) (.temp 4)))) := rfl
  rw [refused] at ended
  cases ended

/-! ### Deciding the open places of a candidate -/

/-- Some of the undecided places of a candidate are decided, but not for hardware registers. -/
def Decides (slots slots' : List Slot) : Prop :=
  List.Forall₂ (fun slot slot' => slot' = slot ∨ slot = .undecided ∧ isNumbered slot' = false)
    slots slots'

variable {slots slots' : List Slot}

theorem Decides.part (decides : Decides slots slots') : Part slots slots' := by
  refine ⟨decides.length_eq.le, fun i slot here => ?_⟩
  obtain ⟨bound, rfl⟩ := List.getElem?_eq_some_iff.mp here
  rcases decides.get bound (decides.length_eq ▸ bound) with same | ⟨open', _⟩
  · right
    rw [List.getElem?_eq_getElem (decides.length_eq ▸ bound)]
    exact congrArg some same
  · exact .inl open'

theorem Decides.unnumbered (decides : Decides slots slots')
    (unnumbered : slots.any isNumbered = false) : slots'.any isNumbered = false := by
  induction decides with
  | nil => rfl
  | cons here _ ih =>
    rw [List.any_cons, Bool.or_eq_false_iff] at unnumbered ⊢
    refine ⟨?_, ih unnumbered.2⟩
    rcases here with rfl | ⟨_, plain⟩
    · exact unnumbered.1
    · exact plain

/-- A candidate that is rejected is rejected however its open places are decided, unless it was
too long for the temporaries and now has a register of a bank with more room. -/
theorem rejected_decided (graph : ChainGraph) {parity : Parity} {conflict : Conflict}
    (unnumbered : slots.any isNumbered = false) (decides : Decides slots slots')
    (rejected : graph.fit slots parity = .error conflict) :
    (∃ conflict', graph.fit slots' parity = .error conflict') ∨
      ∃ length fit, conflict = .tooLong length (graph.limit .temp) ∧
        graph.fit slots' parity = .ok fit ∧ graph.limit .temp < length ∧
        length ≤ graph.limit fit.bank := by
  have whole : graph.fit slots' parity = graph.fitVirtual slots' parity :=
    if_neg (Bool.eq_false_iff.mp (decides.unnumbered unnumbered))
  have rejected : graph.fitVirtual slots parity = .error conflict :=
    (if_neg (Bool.eq_false_iff.mp unnumbered)).symm.trans rejected
  rw [whole]
  cases judged : graph.fitVirtual slots' parity with
  | error conflict' => exact .inl ⟨conflict', rfl⟩
  | ok fit =>
    rcases decides.part.fitVirtual_cases judged with ⟨_, fits⟩ | ⟨length, long, more, room⟩
    · cases rejected.symm.trans fits
    · exact .inr ⟨length, fit, Except.error.inj (rejected.symm.trans long), rfl, more, room⟩

/-- An attribute with eight places behind it is too long, whatever stands there. -/
theorem rejected_behind_input :
    inputGraph.fit (.register (.temp 6) :: List.replicate 8 .undecided) .any =
        .error (.tooLong 9 8) ∧
      ∃ conflict', inputGraph.fit (.register (.temp 6) ::
        [1, 2, 3, 4, 5, 7, 8, 9].map (.register <| .temp ·)) .any = .error conflict' := by
  have virt : (Slot.register (.temp 6) :: List.replicate 8 .undecided).any isNumbered = false :=
    rfl
  refine ⟨rfl, (rejected_decided inputGraph virt ?_ rfl).resolve_right ?_⟩
  · exact .cons (.inl rfl) (.cons (.inr ⟨rfl, rfl⟩) (.cons (.inr ⟨rfl, rfl⟩)
      (.cons (.inr ⟨rfl, rfl⟩) (.cons (.inr ⟨rfl, rfl⟩) (.cons (.inr ⟨rfl, rfl⟩)
      (.cons (.inr ⟨rfl, rfl⟩) (.cons (.inr ⟨rfl, rfl⟩) (.cons (.inr ⟨rfl, rfl⟩) .nil))))))))
  · rintro ⟨length, _, isLong, _⟩
    cases isLong

/-- Five places are too many for temporaries, but not with an attribute at their end. -/
theorem fits_after_rejection : Reached inputGraph ∧
      inputGraph.fit [.register (.temp 1), .undecided, .undecided, .undecided, .undecided] .any =
        .error (.tooLong 5 4) ∧
      Decides [.register (.temp 1), .undecided, .undecided, .undecided, .undecided]
        [.register (.temp 1), .undecided, .undecided, .undecided, .register (.temp 6)] ∧
      ∃ fit, inputGraph.fit [.register (.temp 1), .undecided, .undecided, .undecided,
        .register (.temp 6)] .any = .ok fit :=
  ⟨reached_inputGraph, rfl, .cons (.inl rfl) (.cons (.inl rfl) (.cons (.inl rfl)
    (.cons (.inl rfl) (.cons (.inr ⟨rfl, rfl⟩) .nil)))), _, rfl⟩

end ChainGraph

namespace ChainGraph

open List

variable {g after : ChainGraph} {banks : Bank → Prop} {limits : BankLimits} {lo hi : Register}
  {head : NodeId}

/-- A chain fits its bank, or it has no pin and is shorter than one of some banks allows. -/
def Holds (g : ChainGraph) (banks : Bank → Prop) (ms : List Register) : Prop :=
  ms.length ≤ g.limit ((g.bankAmong ms).getD .temp) ∨
    g.bankAmong ms = none ∧ ∃ bank, banks bank ∧ ms.length < g.limit bank

/-- All pins are in some banks, those of a chain in one of them, and there is room for each
chain. -/
structure Housed (limits : BankLimits) (banks : Bank → Prop) (g : ChainGraph) : Prop where
  limits : g.limits = limits
  single : 1 ≤ g.limit .temp
  pins : ∀ reg pin, g.pinAt reg = some pin → banks pin.bank
  uniform : ∀ members, IsRun (g.Follows false) members →
    ∀ reg ∈ members, ∀ pin, g.pinAt reg = some pin → g.bankAmong members = some pin.bank
  room : ∀ members, IsRun (g.Follows false) members → g.Holds banks members

/-- The banks that a graph has pins in. -/
def PinnedTo (g : ChainGraph) (bank : Bank) : Prop :=
  ∃ r pin, g.pinAt r = some pin ∧ pin.bank = bank

theorem Bounded.housed (bounded : g.Bounded) (single : 1 ≤ g.limit .temp) :
    g.Housed g.limits g.PinnedTo where
  limits := rfl
  single := single
  pins r pin isPin := ⟨r, pin, isPin, rfl⟩
  uniform := bounded.uniform
  room ms run := .inl (bounded.room ms run)

/-! ### Cutting -/

section

variable (housed : g.Housed limits banks)

include housed

/-- A part of a chain is housed: with a pin it is in the bank of the whole, and without one it
lacks a pin that the whole has, if the whole has any. -/
theorem Housed.holds_part {left ms back : List Register}
    (chain : IsRun (g.Follows false) (left ++ ms ++ back)) : g.Holds banks ms := by
  have oneBank : g.OneBank _ := housed.uniform _ chain
  have longer : ms.length ≤ (left ++ ms ++ back).length := by
    simp only [length_append]
    omega
  cases here : g.bankAmong ms with
  | some bank =>
    obtain ⟨r, mem, pin, isPin, rfl⟩ := exists_of_bankAmong here
    have whole := oneBank.bankAmong_part mem isPin
    rcases housed.room _ chain with fits | ⟨free, _⟩
    · left
      rw [whole]
      exact longer.trans fits
    · cases here.symm.trans (whole.trans free)
  | none =>
    cases there : g.bankAmong (left ++ ms ++ back) with
    | none =>
      rcases housed.room _ chain with fits | ⟨_, bank, inside, short⟩
      · left
        rw [here, ← there]
        exact longer.trans fits
      · exact .inr ⟨here, bank, inside, longer.trans_lt short⟩
    | some bank =>
      obtain ⟨r, mem, pin, isPin, rfl⟩ := exists_of_bankAmong there
      -- The pin is outside of the part, so the part is shorter than the whole.
      have outside : r ∉ ms := fun inside => by
        cases (bankAmong_eq_none.mp here r inside).symm.trans isPin
      have shorter : ms.length < (left ++ ms ++ back).length := by
        rw [mem_append, mem_append] at mem
        simp only [length_append]
        rcases mem with (inLeft | inside) | inBack
        · have := length_pos_of_mem inLeft
          omega
        · exact absurd inside outside
        · have := length_pos_of_mem inBack
          omega
      rcases housed.room _ chain with fits | ⟨free, _⟩
      · rw [there] at fits
        exact .inr ⟨here, pin.bank, housed.pins r pin isPin, shorter.trans_le fits⟩
      · cases there.symm.trans free

/-- Chains are still housed when links are cut, and when a register that is alone loses its
pin. -/
theorem Housed.cut (sound : g.Sound) (sound' : after.Sound) (same : after.limits = g.limits)
    (sub : ∀ lo hi, after.Follows false lo hi → g.Follows false lo hi)
    (pins : ∀ r, after.pinAt r = g.pinAt r ∨
      after.pinAt r = none ∧ IsRun (after.Follows false) [r]) :
    after.Housed limits banks := by
  have limit : ∀ bank, after.limit bank = g.limit bank := fun bank => by
    rw [limit, same, limit]
  have kept : ∀ {r pin}, after.pinAt r = some pin → g.pinAt r = some pin := by
    intro r pin isPin
    rcases pins r with same | ⟨free, _⟩
    · exact same ▸ isPin
    · cases free.symm.trans isPin
  -- A run is alone and without a pin, or its pins are as before.
  have cases' : ∀ ms, IsRun (after.Follows false) ms → (∃ r, ms = [r] ∧ after.pinAt r = none) ∨
        after.bankAmong ms = g.bankAmong ms := by
    intro ms run
    by_cases same : ∀ r ∈ ms, after.pinAt r = g.pinAt r
    · exact .inr (bankAmong_congr same)
    · push Not at same
      obtain ⟨r, mem, differs⟩ := same
      obtain ⟨free, alone⟩ := (pins r).resolve_left differs
      exact .inl ⟨r, sound'.eq_of_mem run alone mem mem_cons_self, free⟩
  refine ⟨same.trans housed.limits, limit _ ▸ housed.single,
    fun r pin isPin => housed.pins r pin (kept isPin),
    fun ms run r mem pin isPin => ?_, fun ms run => ?_⟩
  · obtain ⟨left, back, chain⟩ := sound.exists_whole sub run
    rcases cases' ms run with ⟨one, rfl, free⟩ | same
    · obtain rfl := mem_singleton.mp mem
      cases free.symm.trans isPin
    · rw [same]
      exact OneBank.part (housed.uniform _ chain) r mem pin (kept isPin)
  · rcases cases' ms run with ⟨one, rfl, free⟩ | same
    · left
      rw [bankAmong_eq_none.mpr fun other inside => mem_singleton.mp inside ▸ free]
      exact limit _ ▸ housed.single
    · obtain ⟨left, back, chain⟩ := sound.exists_whole sub run
      unfold Holds
      rw [same, limit]
      simp only [limit]
      exact housed.holds_part chain

theorem Housed.shrink (sound : g.Sound) (sound' : after.Sound) (grows : g.Grows after)
    (sub : ∀ lo hi, after.Follows false lo hi → g.Follows false lo hi) :
    after.Housed limits banks :=
  housed.cut sound sound' grows.limits sub fun r =>
    .inl (grows.pinAt sound.toShaped sound'.toShaped r)

end

theorem Recast.follows_cut {cut : List NodeId} (recast : g.Recast after (cutNode cut))
    (follows : after.Follows false lo hi) : g.Follows false lo hi := by
  obtain ⟨a, b, lowNamed, highNamed, leads⟩ := follows
  rw [recast.find] at lowNamed highNamed
  exact ⟨a, b, lowNamed, highNamed, (recast.leads_cut.mp leads).1⟩

theorem Housed.unlink (housed : g.Housed limits banks) (sound : g.Sound) (id : NodeId) :
    (g.unlink id).graph.Housed limits banks := by
  have recast := sound.toShaped.recast_unlink id
  exact housed.cut sound (sound.unlink id) recast.limits (fun _ _ => recast.follows_cut)
    fun r => .inl (recast.pinAt_cut r)

section Losing

variable {id : NodeId} {r one : Register} {n : Node}

theorem Loses.find_of_ne (loses : g.Loses after id r) (distinct : one ≠ r) :
    after.find one = g.find one := by
  rw [loses.find, if_neg distinct]

theorem Sound.key_ne (sound : g.Sound) (known : g.find r = some id) {k : NodeId}
    (distinct : one ≠ r) (isKey : g.find one = some k) : k ≠ id := by
  rintro rfl
  exact distinct (sound.find_inj isKey known)

/-- A register that loses its node is alone and has no pin; the others keep theirs. -/
theorem Loses.pinAt (loses : g.Loses after id r) (sound : g.Sound) (known : g.find r = some id)
    (one : Register) : after.pinAt one = g.pinAt one ∨
      after.pinAt one = none ∧ IsRun (after.Follows false) [one] := by
  by_cases released : one = r
  · have gone : after.find one = none := by rw [loses.find, if_pos released]
    exact .inr ⟨pinAt_of_none gone, Shaped.run_of_none gone⟩
  · left
    unfold ChainGraph.pinAt pinOf
    rw [loses.find_of_ne released]
    cases isKey : g.find one with
    | none => rfl
    | some k =>
      rw [Option.bind_some, Option.bind_some, loses.node_of_ne (sound.key_ne known released isKey)]

/-- A node that nothing is linked to takes only its own pin away. -/
theorem Housed.loses (housed : g.Housed limits banks) (sound : g.Sound)
    (found : g.node? id = some n) (named : n.register = r) (isHead : n.prev = none)
    (last : n.next = none) (same : after.limits = g.limits) (loses : g.Loses after id r) :
    after.Housed limits banks := by
  have sound' := sound.loses found named isHead last loses
  have known : g.find r = some id := named ▸ sound.find_of_node? found
  have gone : after.find r = none := by rw [loses.find, if_pos rfl]
  refine housed.cut sound sound' same (fun lo hi follows => ?_) (loses.pinAt sound known)
  obtain ⟨source, target, lowNamed, highNamed, leads⟩ := follows
  have notLow : lo ≠ r := by
    rintro rfl
    cases gone.symm.trans lowNamed
  have notHigh : hi ≠ r := by
    rintro rfl
    cases gone.symm.trans highNamed
  rw [loses.find_of_ne notLow] at lowNamed
  rw [loses.find_of_ne notHigh] at highNamed
  exact ⟨source, target, lowNamed, highNamed,
    (loses.leads_iff (sound.key_ne known notLow lowNamed)).mp leads⟩

end Losing

/-! ### Linking -/

theorem Housed.join {must : Bool} {pre post : List Register} (housed : g.Housed limits banks)
    (sound : g.Sound) (unites : g.Unites after lo hi must pre post) :
    after.Housed limits banks := by
  have grows := unites.ties.grows
  have pins := grows.pinAt sound.toShaped unites.ties.sound.toShaped
  refine ⟨grows.limits.trans housed.limits, grows.limit _ ▸ housed.single,
    fun r pin isPin => housed.pins r pin (pins r ▸ isPin),
    fun ms run => unites.oneBank sound housed.uniform run, fun ms run => ?_⟩
  unfold Holds
  simp only [grows.bankAmong sound.toShaped unites.ties.sound.toShaped, grows.limit]
  rcases unites.run sound run with rfl | old
  · left
    rw [bankAmong_append, length_append]
    exact unites.room.2.2
  · exact housed.room ms old

theorem Housed.link (housed : g.Housed limits banks) (sound : g.Sound) (lo hi : Register)
    (must via : Bool) : (g.link lo hi must via).graph.Housed limits banks :=
  sound.link_of_unites lo hi must via (fun sound' grows sub => housed.shrink sound sound' grows sub)
    fun sound' _ _ housed' unites => housed'.join sound' unites

/-! ### Requests -/

/-- Whatever is asked of a graph, it stays sound, and its chains stay housed. -/
theorem upkept_housed (limits : BankLimits) (banks : Bank → Prop) :
    Upkept fun g => g.Sound ∧ g.Housed limits banks := by
  refine upkept_of_sound (fun r sound housed => ?_) (fun lo hi must via sound housed =>
      housed.link sound lo hi must via)
    (fun id sound housed => housed.unlink sound id) (fun id parity must sound housed => ?_)
    fun {g id alone} sound isAlone isFirst isLast housed => ?_
  · have equipped := sound.equipped_ensure r
    exact housed.shrink sound equipped.sound equipped.grows
      fun lo hi => (equipped.follows false lo hi).mp
  · have settles := sound.settles_setParity id parity must
    exact housed.shrink sound settles.sound settles.grows
      fun lo hi => (settles.follows_iff sound).mp
  · exact housed.loses sound isAlone rfl isFirst isLast rfl
      (sound.toShaped.loses_dropNode id alone.register)

/-! ### Chains after seeding -/

theorem Housed.chain (housed : g.Housed limits banks) (sound : g.Sound) (isHead : head ∈ g.heads) :
    (g.chain head).length ≤ limits.get (g.bankOf head) ∨
      (∀ id ∈ g.chain head, g.pinOf id = none) ∧ g.bankOf head = .temp ∧
        ∃ bank, banks bank ∧ (g.chain head).length < limits.get bank := by
  obtain ⟨run, sameBank, _⟩ := sound.registers_of_head isHead
  have room := housed.room _ run
  have limit : ∀ bank, g.limit bank = limits.get bank := fun bank => by
    rw [limit, housed.limits]
  unfold Holds at room
  simp only [sameBank, length_map, limit] at room
  rw [sound.bankOf_head isHead]
  rcases room with fits | ⟨free, short⟩
  · exact .inl fits
  · refine .inr ⟨fun id inside => ?_, ?_, short⟩
    · have none := findSome?_eq_none_iff.mp free id inside
      exact Option.map_eq_none_iff.mp none
    · rw [free]
      rfl

/-- Whatever is asked of a graph after the descriptors of a program were seeded, a chain fits its
bank, or it has no pin and is shorter than a bank allows that some register was pinned to. So all
chains fit their banks if those banks hold at most one register more than the temporaries. -/
theorem chains_fit_requests {target : Target} {program : Program} {pass : Pass}
    (closed : program.Closed) (roomy : ∀ bank, 1 ≤ target.limits.get bank)
    (seeds : seedAll.Yields (.start target program) () pass) (requests : List Request) :
    let graph := requests.foldl Request.perform pass.graph
    (∀ head ∈ graph.heads,
      (graph.chain head).length ≤ target.limits.get (graph.bankOf head) ∨
        (∀ id ∈ graph.chain head, graph.pinOf id = none) ∧ graph.bankOf head = .temp ∧
          ∃ bank, pass.graph.PinnedTo bank ∧
            (graph.chain head).length < target.limits.get bank) ∧
    ((∀ bank, pass.graph.PinnedTo bank →
        target.limits.get bank ≤ target.limits.get .temp + 1) →
      ∀ head ∈ graph.heads,
        (graph.chain head).length ≤ target.limits.get (graph.bankOf head)) := by
  intro graph
  obtain ⟨consistent, _, _, isLimits, _⟩ := seedAll_yields closed seeds
  have limit : ∀ bank, pass.graph.limit bank = target.limits.get bank := fun bank => by
    rw [limit, isLimits]
  have bounded := consistent.pinned.bounded fun bank => limit bank ▸ roomy bank
  have housed := bounded.housed (limit _ ▸ roomy .temp)
  rw [isLimits] at housed
  obtain ⟨sound', housed'⟩ := (upkept_housed _ _).performAll ⟨consistent.pinned.sound, housed⟩
    requests
  have chains : ∀ head ∈ graph.heads, _ := fun head isHead => housed'.chain sound' isHead
  refine ⟨chains, fun narrow head isHead => ?_⟩
  rcases chains head isHead with fits | ⟨_, free, bank, inside, short⟩
  · exact fits
  · rw [free]
    exact Nat.le_of_lt_succ (Nat.lt_of_lt_of_le short (narrow bank inside))

/-! ### Four temporaries behind an attribute -/

/-- Four registers in a row, with an attribute in front that may go elsewhere, and one more
register behind that may go elsewhere at first and then may not. -/
def stretching : List Request :=
  [.link (.temp 7) none (.temp 8) none true false, .link (.temp 8) none (.temp 9) none true false,
    .link (.temp 9) none (.temp 10) none true false,
    .link (.temp 6) none (.temp 7) none false false,
    .link (.temp 10) none (.temp 11) none false false,
    .link (.temp 10) none (.temp 11) none true false]

/-- The attribute is cut off, and there are fewer registers left than there are attributes. -/
theorem chains_fit_stretching :
    inputOnly.Closed ∧ (∀ bank, 1 ≤ standard.target.limits.get bank) ∧
      seedAll.Yields (.start standard.target inputOnly) ()
        (seedAll.leaves (.start standard.target inputOnly)) ∧
      let graph := stretching.foldl Request.perform inputGraph
      ∀ head ∈ graph.heads,
        (graph.chain head).length ≤ standard.target.limits.get (graph.bankOf head) ∨
          (∀ id ∈ graph.chain head, graph.pinOf id = none) ∧ graph.bankOf head = .temp ∧
            ∃ bank, inputGraph.PinnedTo bank ∧
              (graph.chain head).length < standard.target.limits.get bank := by
  have declares : (Program.declare (.input .primary none [.temp 6])).Yields
      (.empty "main") ⟨0⟩ inputOnly := ⟨rfl, rfl⟩
  have closed : inputOnly.Closed := (Program.closed_empty "main").declare declares
  have roomy : ∀ bank, 1 ≤ standard.target.limits.get bank := by
    intro bank
    cases bank <;> decide
  have seeds : seedAll.Yields (.start standard.target inputOnly) ()
      (seedAll.leaves (.start standard.target inputOnly)) := ⟨rfl, rfl⟩
  exact ⟨closed, roomy, seeds, (chains_fit_requests closed roomy seeds stretching).1⟩

/-- There are five registers left, which is too many for temporaries. -/
theorem stretched_chain_outgrows : ∃ head ∈ (stretching.foldl Request.perform inputGraph).heads,
      (stretching.foldl Request.perform inputGraph).limit
          ((stretching.foldl Request.perform inputGraph).bankOf head) <
        ((stretching.foldl Request.perform inputGraph).chain head).length := by
  decide +kernel

end ChainGraph

end RegisterChains

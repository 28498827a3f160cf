import Mathlib.Data.List.Nodup
import ShiftReduce.Proofs.Except
import ShiftReduce.Proofs.Distinct
import ShiftReduce.Proofs.Analysis
import ShiftReduce.Collection

/-!
# Proofs/Collection — the states of a grammar and their transitions

`Canonical rules a c` says what the canonical collection is, in terms of the items that its states
hold and the edges between them: the initial state is called for by the start rule, an edge over `x`
leads to the state called for by the items advanced over `x`, there is such an edge wherever an item
has `x` behind its dot, and every state is reached.  `canonical_of_eq_ok` finds it true of what
`Collection.canonical` builds; everything else about states is drawn from it.
-/

namespace ShiftReduce

/-! ## Items -/

namespace Item

/-- The symbol behind the dot is that of the rule's right-hand side. -/
theorem next?_eq_some_iff {rules : Array Rule} {i : Item} {x : SymbolId} :
    i.next? rules = some x ↔ ∃ rule, rules[i.rule]? = some rule ∧ rule.rhs[i.dot]? = some x := by
  simp only [next?, Option.bind_eq_some_iff]

theorem isComplete_iff {rules : Array Rule} {i : Item} :
    i.isComplete rules = true ↔ ∃ rule, rules[i.rule]? = some rule ∧ i.dot = rule.rhs.length := by
  unfold isComplete
  cases rules[i.rule]? with
  | none => simp
  | some rule => simp

/-- The items that a kernel calls for: its own, and the rules of every nonterminal behind a dot. -/
inductive Called (rules : Array Rule) (kernel : Item → Prop) : Item → Prop
  | kernel {i : Item} (h : kernel i) : Called rules kernel i
  | predicted {i : Item} {r : RuleId} {rule : Rule} (h : Called rules kernel i)
    (hr : rules[r]? = some rule) (hx : i.next? rules = some rule.lhs) : Called rules kernel ⟨r, 0⟩

theorem Called.imp {rules : Array Rule} {kernel kernel' : Item → Prop} {i : Item}
    (himp : ∀ i, kernel i → kernel' i) (h : Called rules kernel i) : Called rules kernel' i := by
  induction h with
  | kernel h => exact .kernel (himp _ h)
  | predicted _ hr hx ih => exact .predicted ih hr hx

end Item

/-! ## Closures -/

namespace State

open ShiftReduce.Derivation

variable {rules : Array Rule} {symbolCount terminalCount : Nat}

theorem getElem?_productions {r : RuleId} :
    (productions rules)[r]? = (rules[r]?).map Rule.toProduction := by
  simp [productions]

/-- Rules over the symbols below `symbolCount` which rewrite nonterminals only, and no more of them
than there are words for. -/
structure Numbered (rules : Array Rule) (symbolCount terminalCount : Nat) : Prop
    extends Analysis.Within (productions rules) symbolCount terminalCount where
  size_le : rules.size ≤ indexSpace + 1

/-- All numbers of so many rules fit a word, so the analysis drops none of them. -/
theorem Numbered.le_indexSpace (hP : Numbered rules symbolCount terminalCount) {r : RuleId}
    {rule : Rule} (hr : rules[r]? = some rule) : r ≤ indexSpace :=
  Nat.le_of_lt_succ (Nat.lt_of_lt_of_le (Array.getElem?_eq_some_iff.1 hr).1 hP.size_le)

/-- The rules of a nonterminal that an analysis lists. -/
theorem mem_rulesFor_iff {r : RuleId} {x : SymbolId} :
    r ∈ (Analysis.compute (productions rules) symbolCount terminalCount).rulesFor x ↔
      x < symbolCount ∧ r ≤ indexSpace ∧ ∃ rule, rules[r]? = some rule ∧ rule.lhs = x := by
  simp [Analysis.mem_rulesFor_iff, getElem?_productions]

/-- Numbered rules are all listed under their left-hand sides. -/
theorem mem_rulesFor (hP : Numbered rules symbolCount terminalCount) {r : RuleId} {x : SymbolId} :
    r ∈ (Analysis.compute (productions rules) symbolCount terminalCount).rulesFor x ↔
      ∃ rule, rules[r]? = some rule ∧ rule.lhs = x := by
  rw [mem_rulesFor_iff]
  refine ⟨fun ⟨_, _, h⟩ => h, fun ⟨rule, hr, hx⟩ => ⟨?_, hP.le_indexSpace hr, rule, hr, hx⟩⟩
  exact hx ▸ hP.lhs_lt _ (mem_productions_of_getElem? hr)

/-- What is predicted for a nonterminal are its listed rules, with the dot in front. -/
theorem mem_predicted_iff {i : Item} {x : SymbolId} :
    i ∈ predicted (.compute (productions rules) symbolCount terminalCount) x ↔
      i.dot = 0 ∧ i.rule ∈
        (Analysis.compute (productions rules) symbolCount terminalCount).rulesFor x := by
  unfold predicted
  rw [List.mem_map]
  constructor
  · rintro ⟨r, h, rfl⟩
    exact ⟨rfl, h⟩
  · obtain ⟨r, dot⟩ := i
    rintro ⟨rfl, h⟩
    exact ⟨r, h, rfl⟩

theorem mem_predicted (hP : Numbered rules symbolCount terminalCount)
    {i : Item} {x : SymbolId} :
    i ∈ predicted (.compute (productions rules) symbolCount terminalCount) x ↔
      i.dot = 0 ∧ ∃ rule, rules[i.rule]? = some rule ∧ rule.lhs = x := by
  rw [mem_predicted_iff, mem_rulesFor hP]

/-- What is expected next are the nonterminals behind the dots. -/
theorem mem_expected {items : List Item} {x : SymbolId} :
    x ∈ expected rules (.compute (productions rules) symbolCount terminalCount) items ↔
      terminalCount ≤ x ∧ ∃ i ∈ items, i.next? rules = some x := by
  have ht : (Analysis.compute (productions rules) symbolCount terminalCount).isTerminal x
      = decide (x < terminalCount) := by
    rw [Analysis.isTerminal, Analysis.bounded_compute.terminalCount_eq]
  simp [expected, ht, and_comm]

theorem lt_of_next? (hrhs : ∀ p ∈ productions rules, ∀ x ∈ p.rhs, x < symbolCount) {i : Item}
    {x : SymbolId} (h : i.next? rules = some x) : x < symbolCount := by
  obtain ⟨rule, hr, hx⟩ := Item.next?_eq_some_iff.1 h
  exact hrhs _ (mem_productions_of_getElem? hr) x (List.mem_of_getElem? hx)

/-- The nonterminals that can stand in front of what follows a dot: those behind the dots, and with
each of them the nonterminals that its rules begin with, as far as these rules have numbers. -/
inductive LeftCorner (rules : Array Rule) (terminalCount : Nat) (kernel : List Item) :
    SymbolId → Prop
  | behind {i : Item} {x : SymbolId} (hi : i ∈ kernel) (hx : i.next? rules = some x)
    (ht : terminalCount ≤ x) : LeftCorner rules terminalCount kernel x
  | front {r : RuleId} {rule : Rule} {x : SymbolId}
    (h : LeftCorner rules terminalCount kernel rule.lhs) (hn : r ≤ indexSpace)
    (hr : rules[r]? = some rule) (hx : rule.rhs.head? = some x) (ht : terminalCount ≤ x) :
    LeftCorner rules terminalCount kernel x

theorem next?_front {r : RuleId} {rule : Rule} (hr : rules[r]? = some rule) :
    (Item.mk r 0).next? rules = rule.rhs.head? := by
  rw [Item.next?, hr, Option.bind_some, List.head?_eq_getElem?]

theorem LeftCorner.lt {kernel : List Item} {x : SymbolId}
    (hrhs : ∀ p ∈ productions rules, ∀ x ∈ p.rhs, x < symbolCount)
    (h : LeftCorner rules terminalCount kernel x) : x < symbolCount := by
  cases h with
  | behind _ hx => exact lt_of_next? hrhs hx
  | front _ _ hr hx => exact lt_of_next? hrhs ((next?_front hr).trans hx)

/-- The search for leading nonterminals finds left corners only. -/
theorem leftCorner_of_reaches {kernel : List Item} {x : SymbolId}
    (h : Reachability.Reaches
      (fun x => expected rules (.compute (productions rules) symbolCount terminalCount)
        (predicted (.compute (productions rules) symbolCount terminalCount) x))
      (expected rules (.compute (productions rules) symbolCount terminalCount) kernel) x) :
    LeftCorner rules terminalCount kernel x := by
  induction h with
  | start h =>
    obtain ⟨ht, i, hi, hx⟩ := mem_expected.1 h
    exact .behind hi hx ht
  | step _ hb ih =>
    obtain ⟨ht, ⟨r, dot⟩, hi, hx⟩ := mem_expected.1 hb
    obtain ⟨rfl, hmem⟩ := mem_predicted_iff.1 hi
    obtain ⟨-, hn, rule, hr, rfl⟩ := mem_rulesFor_iff.1 hmem
    exact .front ih hn hr ((next?_front hr).symm.trans hx) ht

theorem symbolCount_compute : (Analysis.compute (productions rules) symbolCount
    terminalCount).symbolCount = symbolCount := Analysis.confined_first.1

/-- **What a kernel's dots lead to are its left corners.** -/
theorem mem_leading_iff (hrhs : ∀ p ∈ productions rules, ∀ x ∈ p.rhs, x < symbolCount)
    {kernel : List Item} {x : SymbolId} :
    x ∈ leading rules (.compute (productions rules) symbolCount terminalCount) kernel ↔
      LeftCorner rules terminalCount kernel x := by
  rw [leading, Reachability.mem_explore_iff
    (fun _ h => List.mem_range.2 ((leftCorner_of_reaches h).lt hrhs))
    (by rw [List.length_range, symbolCount_compute])]
  refine ⟨leftCorner_of_reaches, fun h => ?_⟩
  induction h with
  | behind hi hx ht => exact .start (mem_expected.2 ⟨ht, _, hi, hx⟩)
  | front h hn hr hx ht ih =>
    refine .step ih (mem_expected.2 ⟨ht, ⟨_, 0⟩, ?_, (next?_front hr).trans hx⟩)
    exact mem_predicted_iff.2 ⟨rfl, mem_rulesFor_iff.2 ⟨h.lt hrhs, hn, _, hr, rfl⟩⟩

/-- The nonterminals behind the dots of the items that a kernel calls for. -/
theorem mem_leading (hP : Numbered rules symbolCount terminalCount)
    {kernel : List Item} {x : SymbolId} :
    x ∈ leading rules (.compute (productions rules) symbolCount terminalCount) kernel ↔
      terminalCount ≤ x ∧ ∃ i, Item.Called rules (· ∈ kernel) i ∧ i.next? rules = some x := by
  rw [mem_leading_iff hP.rhs_lt]
  constructor
  · intro h
    induction h with
    | behind hi hx ht => exact ⟨ht, _, .kernel hi, hx⟩
    | front _ _ hr hx ht ih =>
      obtain ⟨-, i, hi, hn⟩ := ih
      exact ⟨ht, _, .predicted hi hr hn, (next?_front hr).trans hx⟩
  · rintro ⟨hx, i, hi, hn⟩
    induction hi generalizing x with
    | kernel h => exact .behind h hn hx
    | predicted _ hr hi ih =>
      have hle := hP.le_lhs _ (mem_productions_of_getElem? hr)
      exact .front (ih hle hi) (hP.le_indexSpace hr) hr ((next?_front hr).symm.trans hn) hx

/-- **A state holds the items that its kernel calls for.** -/
theorem mem_items_closure (hP : Numbered rules symbolCount terminalCount)
    {kernel : List Item} {i : Item} :
    i ∈ (closure rules (.compute (productions rules) symbolCount terminalCount) kernel).items ↔
      Item.Called rules (· ∈ kernel) i := by
  have hitems : i ∈ (closure rules (.compute (productions rules) symbolCount terminalCount)
      kernel).items ↔ i ∈ kernel ∨ ∃ x ∈ leading rules
        (.compute (productions rules) symbolCount terminalCount) kernel,
        i ∈ predicted (.compute (productions rules) symbolCount terminalCount) x := by
    simp only [items, closure, List.mem_append, List.mem_eraseDups, List.mem_filter,
      List.mem_flatMap, List.contains_eq_mem]
    by_cases hi : i ∈ kernel <;> simp [hi]
  rw [hitems]
  constructor
  · rintro (h | ⟨x, hx, h⟩)
    · exact .kernel h
    · obtain ⟨-, j, hj, hn⟩ := (mem_leading hP).1 hx
      obtain ⟨r, dot⟩ := i
      obtain ⟨rfl, rule, hr, rfl⟩ := (mem_predicted hP).1 h
      exact .predicted hj hr hn
  · rintro (h | ⟨hj, hr, hn⟩)
    · exact .inl h
    · have hle := hP.le_lhs _ (mem_productions_of_getElem? hr)
      exact .inr ⟨_, (mem_leading hP).2 ⟨hle, _, hj, hn⟩, (mem_predicted hP).2 ⟨rfl, _, hr, rfl⟩⟩

/-- Closing a kernel drops its repetitions and nothing else. -/
theorem mem_kernel_closure {a : Analysis} {kernel : List Item} {i : Item} :
    i ∈ (closure rules a kernel).kernel ↔ i ∈ kernel := List.mem_eraseDups

/-- Kernels are compared as sets. -/
theorem hasKernel_iff {s : State} {kernel : List Item} :
    s.hasKernel kernel = true ↔ ∀ i, i ∈ s.kernel ↔ i ∈ kernel := by
  simp only [hasKernel, Bool.and_eq_true, List.all_eq_true, List.contains_eq_mem, decide_eq_true_eq]
  exact ⟨fun ⟨h, h'⟩ i => ⟨h' i, h i⟩, fun h => ⟨fun i => (h i).2, fun i => (h i).1⟩⟩

/-- The kernel over a symbol holds the advanced items that have it behind the dot. -/
theorem mem_advanceOver {s : State} {x : SymbolId} {i : Item} :
    i ∈ s.advanceOver rules x ↔ ∃ j ∈ s.items, j.next? rules = some x ∧ i = j.advance := by
  simp only [advanceOver, List.mem_map, List.mem_filter, beq_iff_eq, and_assoc]
  exact exists_congr fun j => and_congr_right fun _ => and_congr_right fun _ => eq_comm

theorem mem_nextSymbols {s : State} {x : SymbolId} :
    x ∈ s.nextSymbols rules ↔ ∃ i ∈ s.items, i.next? rules = some x := by
  simp [nextSymbols]

/-- It goes on over each of them once, so it has one transition for each. -/
theorem nodup_nextSymbols (s : State) : (s.nextSymbols rules).Nodup :=
  Distinct.nodup_eraseDups _

end State

namespace Collection

open ShiftReduce.Derivation

/-! ## Items and edges -/

/-- The kernel of a state has the item. -/
def Kernel (c : Collection) (q : StateId) (i : Item) : Prop :=
  ∃ s, c.states[q]? = some s ∧ i ∈ s.kernel

/-- A state holds the item. -/
def Holds (c : Collection) (q : StateId) (i : Item) : Prop :=
  ∃ s, c.states[q]? = some s ∧ i ∈ s.items

/-- A transition of a state. -/
def Edge (c : Collection) (q : StateId) (x : SymbolId) (q' : StateId) : Prop :=
  ∃ transitions, c.transitions[q]? = some transitions ∧ (x, q') ∈ transitions

/-- **What the canonical collection is.** -/
structure Canonical (rules : Array Rule) (c : Collection) : Prop where
  size_transitions : c.transitions.size = c.states.size
  /-- States hold the items that their kernels call for. -/
  holds_iff {q : StateId} {i : Item} : c.Holds q i ↔ Item.Called rules (c.Kernel q) i
  kernel_initial {i : Item} : c.Kernel StateId.initial i ↔ i = ⟨RuleId.start, 0⟩
  /-- The kernel behind an edge has the advanced items. -/
  kernel_of_edge {q q' : StateId} {x : SymbolId} {i : Item} (h : c.Edge q x q') :
    c.Kernel q' i ↔ ∃ j, c.Holds q j ∧ j.next? rules = some x ∧ i = j.advance
  /-- There are edges over the symbols behind the dots, and over no others. -/
  exists_edge_iff {q : StateId} {x : SymbolId} :
    (∃ q', c.Edge q x q') ↔ ∃ i, c.Holds q i ∧ i.next? rules = some x
  edge_unique {q q₁ q₂ : StateId} {x : SymbolId} (h₁ : c.Edge q x q₁) (h₂ : c.Edge q x q₂) :
    q₁ = q₂
  nodup_transitions {q : StateId} {transitions : Transitions}
    (h : c.transitions[q]? = some transitions) : (transitions.map Prod.fst).Nodup
  lt_of_edge {q q' : StateId} {x : SymbolId} (h : c.Edge q x q') : q' < c.states.size
  /-- Every state but the initial one is found from one with a smaller number. -/
  exists_edge_to {q : StateId} (h : q < c.states.size) (h₀ : q ≠ StateId.initial) :
    ∃ p x, p < q ∧ c.Edge p x q

/-! ## The construction -/

variable {rules : Array Rule} {a : Analysis} {limits : Limits}

/-- The second array begins with the states of the first. -/
def Grows (states states' : Array State) : Prop :=
  ∀ (q : StateId) (s : State), states[q]? = some s → states'[q]? = some s

theorem Grows.trans {s₁ s₂ s₃ : Array State} (h : Grows s₁ s₂) (h' : Grows s₂ s₃) : Grows s₁ s₃ :=
  fun q s hs => h' q s (h q s hs)

/-- States are added, never removed. -/
theorem Grows.size_le {states states' : Array State} (h : Grows states states') :
    states.size ≤ states'.size := by
  by_contra hlt
  have hlast : states[states'.size]? = some states[states'.size] :=
    Array.getElem?_eq_getElem (Nat.lt_of_not_le hlt)
  exact absurd (Array.getElem?_eq_some_iff.1 (h _ _ hlast)).1 (Nat.lt_irrefl _)

/-- The states are closures of kernels, and no more than there may be. -/
structure Closed (rules : Array Rule) (a : Analysis) (limits : Limits) (states : Array State) :
    Prop where
  closure {q : StateId} {s : State} (h : states[q]? = some s) : ∃ K, s = State.closure rules a K
  size_le : states.size ≤ maxStates limits

/-- The transitions lead over the symbols to the states of the advanced kernels. -/
structure Leads (rules : Array Rule) (state : State) (states : Array State)
    (transitions : Transitions) : Prop where
  kernel {x : SymbolId} {q : StateId} (h : (x, q) ∈ transitions) :
    ∃ s, states[q]? = some s ∧ ∀ i, i ∈ s.kernel ↔ i ∈ state.advanceOver rules x

/-- Transitions found among some states stay true when more are found. -/
theorem Leads.of_grows {state : State} {states states' : Array State} {transitions : Transitions}
    (h : Leads rules state states transitions) (hg : Grows states states') :
    Leads rules state states' transitions where
  kernel hx := by
    obtain ⟨s, hs, hk⟩ := h.kernel hx
    exact ⟨s, hg _ s hs, hk⟩

/-- The state of a kernel has been found before, or there is still a number for it. -/
theorem stateOf_cases {states states' : Array State} {kernel : List Item} {q : StateId}
    (h : stateOf rules a limits states kernel = .ok (q, states')) :
    (states' = states ∧ ∃ s, states[q]? = some s ∧ s.hasKernel kernel = true) ∨
      (states.size < maxStates limits ∧ q = states.size ∧
        states' = states.push (State.closure rules a kernel)) := by
  unfold stateOf at h
  split at h
  · next q' hq =>
    obtain ⟨rfl, rfl⟩ := Prod.mk.inj (Except.ok.inj h)
    obtain ⟨hlt, hk, -⟩ := Array.findIdx?_eq_some_iff_getElem.1 hq
    exact .inl ⟨rfl, _, Array.getElem?_eq_getElem hlt, hk⟩
  · split at h
    · next hlt =>
      obtain ⟨rfl, rfl⟩ := Prod.mk.inj (Except.ok.inj h)
      exact .inr ⟨hlt, rfl, rfl⟩
    · exact nomatch h

/-- Looking a kernel up keeps the states, yields one with that kernel, and adds no other. -/
theorem of_stateOf {states states' : Array State} {kernel : List Item} {q : StateId}
    (hc : Closed rules a limits states)
    (h : stateOf rules a limits states kernel = .ok (q, states')) :
    Closed rules a limits states' ∧ Grows states states' ∧
      (∃ s, states'[q]? = some s ∧ ∀ i, i ∈ s.kernel ↔ i ∈ kernel) ∧
      ∀ q', states.size ≤ q' → q' < states'.size → q' = q := by
  rcases stateOf_cases h with ⟨rfl, s, hs, hk⟩ | ⟨hlt, rfl, rfl⟩
  · exact ⟨hc, fun _ _ h => h, ⟨s, hs, State.hasKernel_iff.1 hk⟩,
      fun q' hle hlt => absurd hlt (Nat.not_lt_of_le hle)⟩
  · refine ⟨⟨fun {q s} hs => ?_, by rwa [Array.size_push]⟩, fun q s hs => ?_,
      ⟨_, Array.getElem?_push_size, fun i => State.mem_kernel_closure⟩, fun q' hle hlt => ?_⟩
    · rw [Array.getElem?_push] at hs
      split at hs
      · exact ⟨kernel, (Option.some.inj hs).symm⟩
      · exact hc.closure hs
    · have hq := (Array.getElem?_eq_some_iff.1 hs).1
      rw [Array.getElem?_push_lt hq, ← hs, Array.getElem?_eq_getElem hq]
    · rw [Array.size_push] at hlt
      exact Nat.le_antisymm (Nat.le_of_lt_succ hlt) hle

/-- Following symbols keeps the states, leads over each symbol in turn, and adds no state that no
transition leads to. -/
theorem of_follow {state : State} {xs : List SymbolId} {states states' : Array State}
    {transitions : Transitions} (hc : Closed rules a limits states)
    (h : follow rules a limits state xs states = .ok (transitions, states')) :
    Closed rules a limits states' ∧ Grows states states' ∧ Leads rules state states' transitions ∧
      transitions.map Prod.fst = xs ∧
      ∀ q, states.size ≤ q → q < states'.size → ∃ x, (x, q) ∈ transitions := by
  induction xs generalizing states transitions with
  | nil =>
    obtain ⟨rfl, rfl⟩ := Prod.mk.inj (Except.ok.inj h)
    exact ⟨hc, fun _ _ h => h, ⟨nofun⟩, rfl, fun q hle hlt => absurd hlt (Nat.not_lt_of_le hle)⟩
  | cons x xs ih =>
    obtain ⟨⟨q, states₁⟩, h₁, h⟩ := Except.bind_eq_ok h
    obtain ⟨⟨rest, states₂⟩, h₂, h⟩ := Except.bind_eq_ok h
    obtain ⟨rfl, rfl⟩ := Prod.mk.inj (Except.ok.inj h)
    obtain ⟨hc₁, hg₁, ⟨s, hs, hk⟩, hnew₁⟩ := of_stateOf hc h₁
    obtain ⟨hc₂, hg₂, hl, hx, hnew₂⟩ := ih hc₁ h₂
    refine ⟨hc₂, hg₁.trans hg₂, ⟨fun {y q'} hy => ?_⟩, by simp [hx], fun q' hle hlt => ?_⟩
    · rcases List.mem_cons.1 hy with hy | hy
      · obtain ⟨rfl, rfl⟩ := Prod.mk.inj hy
        exact ⟨s, hg₂ _ s hs, hk⟩
      · exact hl.kernel hy
    · rcases Nat.lt_or_ge q' states₁.size with hlt₁ | hge₁
      · exact ⟨x, hnew₁ q' hle hlt₁ ▸ List.mem_cons_self⟩
      · obtain ⟨y, hy⟩ := hnew₂ q' hge₁ hlt
        exact ⟨y, List.mem_cons_of_mem _ hy⟩

/-- What is true of a collection of which the first states have their transitions. -/
structure Growing (rules : Array Rule) (a : Analysis) (limits : Limits) (c : Collection) :
    Prop extends Closed rules a limits c.states where
  initial : ∃ s, c.states[StateId.initial]? = some s ∧ ∀ i, i ∈ s.kernel ↔ i = ⟨RuleId.start, 0⟩
  size_transitions_le : c.transitions.size ≤ c.states.size
  leads {q : StateId} {transitions : Transitions} (h : c.transitions[q]? = some transitions) :
    ∃ s, c.states[q]? = some s ∧ Leads rules s c.states transitions ∧
      transitions.map Prod.fst = s.nextSymbols rules
  found {q : StateId} (h : q < c.states.size) (h₀ : q ≠ StateId.initial) :
    ∃ p x, p < q ∧ c.Edge p x q

/-- Edges stay when the transitions of the next state are added. -/
theorem Edge.push {c : Collection} {states : Array State} {transitions : Transitions}
    {q q' : StateId} {x : SymbolId} (h : c.Edge q x q') :
    Edge ⟨states, c.transitions.push transitions⟩ q x q' := by
  obtain ⟨ts, hts, hx⟩ := h
  have hq := (Array.getElem?_eq_some_iff.1 hts).1
  exact ⟨ts, by rw [Array.getElem?_push_lt hq, ← hts, Array.getElem?_eq_getElem hq], hx⟩

/-- An edge leads from a state to that of its advanced kernel. -/
theorem Growing.exists_of_edge {c : Collection} (hc : Growing rules a limits c) {q q' : StateId}
    {x : SymbolId} (he : c.Edge q x q') :
    ∃ s s', c.states[q]? = some s ∧ x ∈ s.nextSymbols rules ∧ c.states[q']? = some s' ∧
      ∀ i, i ∈ s'.kernel ↔ i ∈ s.advanceOver rules x := by
  obtain ⟨ts, hts, hx⟩ := he
  obtain ⟨s, hs, hl, hsymbols⟩ := hc.leads hts
  obtain ⟨s', hs', hk⟩ := hl.kernel hx
  exact ⟨s, s', hs, hsymbols ▸ List.mem_map_of_mem hx, hs', hk⟩

/-- Finding the transitions of one more state. -/
theorem Growing.step {c : Collection} (hc : Growing rules a limits c) {state : State}
    (hs : c.states[c.transitions.size]? = some state) {transitions : Transitions}
    {states : Array State}
    (h : follow rules a limits state (state.nextSymbols rules) c.states =
      .ok (transitions, states)) :
    Growing rules a limits ⟨states, c.transitions.push transitions⟩ := by
  obtain ⟨hclosed, hg, hl, hx, hnew⟩ := of_follow hc.toClosed h
  have hlt : c.transitions.size < c.states.size := (Array.getElem?_eq_some_iff.1 hs).1
  refine ⟨hclosed, ?_, ?_, fun {q ts} hts => ?_, fun {q} hq h₀ => ?_⟩
  · obtain ⟨s, hs, hk⟩ := hc.initial
    exact ⟨s, hg _ s hs, hk⟩
  · rw [Array.size_push]
    exact Nat.le_trans hlt hg.size_le
  · rw [Array.getElem?_push] at hts
    split at hts
    · next hq =>
      obtain rfl := Option.some.inj hts
      exact ⟨state, hq ▸ hg _ _ hs, hl, hx⟩
    · obtain ⟨s, hs, hl, hx⟩ := hc.leads hts
      exact ⟨s, hg _ s hs, hl.of_grows hg, hx⟩
  · rcases Nat.lt_or_ge q c.states.size with hlt' | hge
    · obtain ⟨p, x, hp, he⟩ := hc.found hlt' h₀
      exact ⟨p, x, hp, he.push⟩
    · obtain ⟨x, hx⟩ := hnew q hge hq
      exact ⟨_, x, Nat.lt_of_lt_of_le hlt hge, transitions, Array.getElem?_push_size, hx⟩

/-- What every round keeps, all of them keep. -/
theorem complete_induction {p : Collection → Prop}
    (step : ∀ c state transitions states, p c → c.states[c.transitions.size]? = some state →
      follow rules a limits state (state.nextSymbols rules) c.states = .ok (transitions, states) →
      p ⟨states, c.transitions.push transitions⟩)
    {n : Nat} {c c' : Collection} (h : p c) (hc : complete rules a limits n c = .ok c') : p c' := by
  induction n generalizing c with
  | zero =>
    obtain rfl := Except.ok.inj hc
    exact h
  | succ n ih =>
    rw [complete] at hc
    split at hc
    · obtain rfl := Except.ok.inj hc
      exact h
    · next state hs =>
      obtain ⟨⟨ts, states⟩, hf, hc⟩ := Except.bind_eq_ok hc
      exact ih (step c state ts states h hs hf) hc

/-- So it stays true however many states get their transitions. -/
theorem Growing.of_complete {n : Nat} {c c' : Collection} (hc : Growing rules a limits c)
    (h : complete rules a limits n c = .ok c') : Growing rules a limits c' :=
  complete_induction (fun _ _ _ _ hc hs hf => hc.step hs hf) hc h

/-- The bound on the rounds is enough for all states. -/
theorem Growing.size_transitions_eq {n : Nat} {c c' : Collection} (hc : Growing rules a limits c)
    (hn : maxStates limits ≤ c.transitions.size + n)
    (h : complete rules a limits n c = .ok c') : c'.transitions.size = c'.states.size := by
  induction n generalizing c with
  | zero =>
    obtain rfl := Except.ok.inj h
    exact Nat.le_antisymm hc.size_transitions_le (Nat.le_trans hc.size_le hn)
  | succ n ih =>
    rw [complete] at h
    split at h
    · next hnone =>
      obtain rfl := Except.ok.inj h
      exact Nat.le_antisymm hc.size_transitions_le (Array.getElem?_eq_none_iff.1 hnone)
    · next state hs =>
      obtain ⟨⟨ts, states⟩, hf, h⟩ := Except.bind_eq_ok h
      exact ih (hc.step hs hf) (by rw [Array.size_push]; omega) h

/-- The first state is that of the start rule. -/
theorem growing_of_stateOf {q : StateId} {states : Array State}
    (h : stateOf rules a limits #[] [⟨RuleId.start, 0⟩] = .ok (q, states)) :
    Growing rules a limits ⟨states, #[]⟩ := by
  have hempty : Closed rules a limits #[] := ⟨fun hs => by simp at hs, Nat.zero_le _⟩
  obtain ⟨hc, -, ⟨s, hs, hk⟩, hnew⟩ := of_stateOf hempty h
  have hq : (0 : StateId) = q :=
    hnew 0 (Nat.le_refl _) (Nat.zero_lt_of_lt (Array.getElem?_eq_some_iff.1 hs).1)
  subst hq
  refine ⟨hc, ⟨s, hs, fun i => by simpa using hk i⟩, Nat.zero_le _, fun h => by simp at h,
    fun hq h₀ => absurd (hnew _ (Nat.zero_le _) hq) h₀⟩

/-! ## What is built -/

/-- The items of a state are those that its kernel calls for, as it is the closure of some kernel
with the same items. -/
theorem Closed.holds_iff {symbolCount terminalCount : Nat} {c : Collection}
    (hP : State.Numbered rules symbolCount terminalCount)
    (hc : Closed rules (.compute (productions rules) symbolCount terminalCount) limits c.states)
    {q : StateId} {i : Item} : c.Holds q i ↔ Item.Called rules (c.Kernel q) i := by
  constructor
  · rintro ⟨s, hs, hi⟩
    obtain ⟨K, rfl⟩ := hc.closure hs
    exact ((State.mem_items_closure hP).1 hi).imp
      fun j hj => ⟨_, hs, State.mem_kernel_closure.2 hj⟩
  · intro hi
    have hs : ∃ s, c.states[q]? = some s := by
      induction hi with
      | kernel h => exact h.imp fun _ h => h.1
      | predicted _ _ _ ih => exact ih
    obtain ⟨s, hs⟩ := hs
    obtain ⟨K, rfl⟩ := hc.closure hs
    refine ⟨_, hs, (State.mem_items_closure hP).2 (hi.imp ?_)⟩
    rintro j ⟨s', hs', hj⟩
    obtain rfl := Option.some.inj (hs.symm.trans hs')
    exact State.mem_kernel_closure.1 hj

namespace Growing

variable {c : Collection} {q : StateId} {x : SymbolId}

theorem kernel_initial_iff (hc : Growing rules a limits c) {i : Item} :
    c.Kernel StateId.initial i ↔ i = ⟨RuleId.start, 0⟩ := by
  obtain ⟨s, hs, hk⟩ := hc.initial
  refine ⟨fun ⟨s', hs', hi⟩ => (hk i).1 ?_, fun hi => ⟨s, hs, (hk i).2 hi⟩⟩
  exact Option.some.inj (hs'.symm.trans hs) ▸ hi

/-- Behind an edge stands the kernel of the advanced items. -/
theorem kernel_of_edge (hc : Growing rules a limits c) {q' : StateId} {i : Item}
    (he : c.Edge q x q') :
    c.Kernel q' i ↔ ∃ j, c.Holds q j ∧ j.next? rules = some x ∧ i = j.advance := by
  obtain ⟨s, s', hs, -, hs', hk⟩ := hc.exists_of_edge he
  constructor
  · rintro ⟨s₁, hs₁, hi⟩
    obtain rfl := Option.some.inj (hs'.symm.trans hs₁)
    obtain ⟨j, hj, hn, rfl⟩ := State.mem_advanceOver.1 ((hk i).1 hi)
    exact ⟨j, ⟨s, hs, hj⟩, hn, rfl⟩
  · rintro ⟨j, ⟨s₁, hs₁, hj⟩, hn, rfl⟩
    obtain rfl := Option.some.inj (hs.symm.trans hs₁)
    exact ⟨s', hs', (hk _).2 (State.mem_advanceOver.2 ⟨j, hj, hn, rfl⟩)⟩

/-- When every state has its transitions, there is an edge over each symbol behind a dot. -/
theorem exists_edge_iff (hc : Growing rules a limits c)
    (hsize : c.transitions.size = c.states.size) :
    (∃ q', c.Edge q x q') ↔ ∃ i, c.Holds q i ∧ i.next? rules = some x := by
  constructor
  · rintro ⟨q', he⟩
    obtain ⟨s, -, hs, hx, -⟩ := hc.exists_of_edge he
    obtain ⟨i, hi, hn⟩ := State.mem_nextSymbols.1 hx
    exact ⟨i, ⟨s, hs, hi⟩, hn⟩
  · rintro ⟨i, ⟨s, hs, hi⟩, hn⟩
    have hlt : q < c.transitions.size := hsize ▸ (Array.getElem?_eq_some_iff.1 hs).1
    have hts := Array.getElem?_eq_getElem hlt
    obtain ⟨s', hs', -, hsymbols⟩ := hc.leads hts
    obtain rfl := Option.some.inj (hs.symm.trans hs')
    have hx := State.mem_nextSymbols.2 ⟨i, hi, hn⟩
    rw [← hsymbols] at hx
    obtain ⟨⟨y, q'⟩, hy, rfl⟩ := List.mem_map.1 hx
    exact ⟨q', _, hts, hy⟩

theorem nodup_transitions (hc : Growing rules a limits c) {ts : Transitions}
    (hts : c.transitions[q]? = some ts) : (ts.map Prod.fst).Nodup := by
  obtain ⟨s, -, -, hsymbols⟩ := hc.leads hts
  exact hsymbols ▸ s.nodup_nextSymbols

theorem edge_unique (hc : Growing rules a limits c) {q₁ q₂ : StateId} (h₁ : c.Edge q x q₁)
    (h₂ : c.Edge q x q₂) : q₁ = q₂ := by
  obtain ⟨ts, hts, hx⟩ := h₁
  obtain ⟨ts', hts', hx'⟩ := h₂
  obtain rfl := Option.some.inj (hts.symm.trans hts')
  have hpair := List.inj_on_of_nodup_map (hc.nodup_transitions hts) hx hx' rfl
  exact (Prod.mk.inj hpair).2

end Growing

/-- **The canonical collection is what it should be.** -/
theorem canonical_of_eq_ok {symbolCount terminalCount : Nat} {c : Collection}
    (hP : State.Numbered rules symbolCount terminalCount)
    (h : canonical rules (.compute (productions rules) symbolCount terminalCount) limits = .ok c) :
    Canonical rules c := by
  obtain ⟨⟨q, states⟩, h₀, h⟩ := Except.bind_eq_ok h
  have hc := (growing_of_stateOf h₀).of_complete h
  have hsize := (growing_of_stateOf h₀).size_transitions_eq (by simp) h
  refine ⟨hsize, hc.toClosed.holds_iff hP, hc.kernel_initial_iff, hc.kernel_of_edge,
    hc.exists_edge_iff hsize, hc.edge_unique, hc.nodup_transitions, fun he => ?_, hc.found⟩
  obtain ⟨-, s', -, -, hs', -⟩ := hc.exists_of_edge he
  exact (Array.getElem?_eq_some_iff.1 hs').1

/-! ## The table of the edges -/

/-- The cell of a transition. -/
def edgeCell (a : Analysis) (t : SymbolId × StateId) : Cell :=
  if a.isTerminal t.1 then .shift t.2 else .goto t.2

theorem size_foldl_edgeCell (ts : Transitions) (row : Array Cell) :
    (ts.foldl (fun row t => row.setIfInBounds t.1 (edgeCell a t)) row).size = row.size := by
  induction ts generalizing row with
  | nil => rfl
  | cons t ts ih => rw [List.foldl_cons, ih, Array.size_setIfInBounds]

theorem size_rowOf (ts : Transitions) : (CellTable.rowOf a ts).size = a.symbolCount :=
  (size_foldl_edgeCell ts _).trans Array.size_replicate

theorem getElem?_foldl_edgeCell_of_not_mem {ts : Transitions} {x : SymbolId}
    (hx : x ∉ ts.map Prod.fst) (row : Array Cell) :
    (ts.foldl (fun row t => row.setIfInBounds t.1 (edgeCell a t)) row)[x]? = row[x]? := by
  induction ts generalizing row with
  | nil => rfl
  | cons t ts ih =>
    rw [List.map_cons, List.mem_cons, not_or] at hx
    rw [List.foldl_cons, ih hx.2, Array.getElem?_setIfInBounds_ne (Ne.symm hx.1)]

/-- A transition writes its own cell, which no later one overwrites as their symbols differ. -/
theorem getElem?_foldl_edgeCell_of_mem {ts : Transitions} {t : SymbolId × StateId} (ht : t ∈ ts)
    (hn : (ts.map Prod.fst).Nodup) {row : Array Cell} (hlt : t.1 < row.size) :
    (ts.foldl (fun row t => row.setIfInBounds t.1 (edgeCell a t)) row)[t.1]?
      = some (edgeCell a t) := by
  induction ts generalizing row with
  | nil => exact nomatch ht
  | cons t' ts ih =>
    rw [List.map_cons, List.nodup_cons] at hn
    rw [List.foldl_cons]
    rcases List.mem_cons.1 ht with rfl | ht
    · rw [getElem?_foldl_edgeCell_of_not_mem hn.1, Array.getElem?_setIfInBounds_self_of_lt hlt]
    · exact ih ht hn.2 (by rwa [Array.size_setIfInBounds])

/-- A cell that says something is in a row. -/
theorem exists_row_of_cell {t : CellTable} {q : StateId} {x : SymbolId}
    (hne : t.cell q x ≠ .error) :
    ∃ row, t.rows[q]? = some row ∧ row[x]? = some (t.cell q x) := by
  unfold CellTable.cell at hne ⊢
  cases hr : t.rows[q]? with
  | none => simp [hr] at hne
  | some row =>
    cases hx : row[x]? with
    | none => simp [hr, hx] at hne
    | some cell => exact ⟨row, rfl, by simp [hx]⟩

theorem size_rows_table {c : Collection} (hc : Canonical rules c) :
    (c.table a).rows.size = c.states.size := by
  simp [table, hc.size_transitions]

/-- Every state has a row, with a cell for each symbol. -/
theorem exists_row_table {c : Collection} (hc : Canonical rules c) {q : StateId} {state : State}
    (hs : c.states[q]? = some state) :
    ∃ row, (c.table a).rows[q]? = some row ∧ row.size = a.symbolCount := by
  have hlt : q < c.transitions.size :=
    hc.size_transitions ▸ (Array.getElem?_eq_some_iff.1 hs).1
  exact ⟨CellTable.rowOf a c.transitions[q], by simp [table, hlt], size_rowOf _⟩

/-- Where there is no row, or no cell in it, the cell is an error. -/
theorem cell_table (c : Collection) (q : StateId) (x : SymbolId) :
    (c.table a).cell q x
      = (((c.transitions[q]?).bind fun ts => (CellTable.rowOf a ts)[x]?)).getD .error := by
  simp only [table, CellTable.cell, Array.getElem?_map]
  cases c.transitions[q]? <;> rfl

/-- Edges over terminals are shifts, the others are gotos. -/
theorem cell_of_edge {c : Collection} (hc : Canonical rules c) {q q' : StateId} {x : SymbolId}
    (h : c.Edge q x q') (hx : x < a.symbolCount) :
    (c.table a).cell q x = if x < a.terminalCount then .shift q' else .goto q' := by
  obtain ⟨ts, hts, hmem⟩ := h
  have hcell : (CellTable.rowOf a ts)[x]? = some (edgeCell a (x, q')) :=
    getElem?_foldl_edgeCell_of_mem hmem (hc.nodup_transitions hts) (by rwa [Array.size_replicate])
  rw [cell_table, hts, Option.bind_some, hcell, Option.getD_some]
  simp [edgeCell, Analysis.isTerminal]

/-- Where no edge leads over a symbol, the cell is an error. -/
theorem cell_of_not_edge {c : Collection} {q : StateId} {x : SymbolId}
    (h : ∀ q', ¬ c.Edge q x q') : (c.table a).cell q x = .error := by
  rw [cell_table]
  cases hts : c.transitions[q]? with
  | none => rfl
  | some ts =>
    have hx : x ∉ ts.map Prod.fst := by
      rintro hx
      obtain ⟨⟨y, q'⟩, hy, rfl⟩ := List.mem_map.1 hx
      exact h q' ⟨ts, hts, hy⟩
    have hcell : (CellTable.rowOf a ts)[x]? = (Array.replicate a.symbolCount Cell.error)[x]? :=
      getElem?_foldl_edgeCell_of_not_mem hx _
    rw [Option.bind_some, hcell, Array.getElem?_replicate]
    split <;> rfl

end Collection
end ShiftReduce

import ShiftReduce.Proofs.Automaton
import ShiftReduce.Proofs.Distinct

/-!
# Proofs/Kernels — states are told apart by their kernels

A state is the closure of its kernel, and a kernel is given a state once: whatever the order in
which its items are found, the states before are searched for it.  With the edges of the collection,
which are the cells of its table, this makes the collection the canonical one, no more and no less
(`Collection.Exact`).
-/

namespace ShiftReduce

open ShiftReduce.Derivation

/-! ## Kernels without repetitions -/

namespace Reachability

variable {α β : Type} [BEq α] [LawfulBEq α] [DecidableEq β]

/-- A value that adds nothing can be left out. -/
theorem extend_filterMap_filter {f : β → Option α} {b : β} {seen : List α}
    (hb : ∀ a, f b = some a → a ∈ seen) (l : List β) :
    extend seen ((l.filter fun b' => !b' == b).filterMap f) = extend seen (l.filterMap f) := by
  induction l generalizing seen with
  | nil => rfl
  | cons b' l ih =>
    by_cases hb' : b' = b
    · subst hb'
      cases hf : f b' with
      | none => simp [hf, ih hb]
      | some a => simp [hf, extend_cons, hb a hf, ih hb]
    · have hkeep : !b' == b := by simpa using hb'
      cases hf : f b' with
      | none => simp [hb', hf, ih hb]
      | some a =>
        rw [List.filter_cons_of_pos (p := fun b' => !b' == b) hkeep, List.filterMap_cons_some hf,
          List.filterMap_cons_some hf, extend_cons, extend_cons]
        refine ih fun a' ha' => ?_
        split
        · exact hb a' ha'
        · exact List.mem_append_left _ (hb a' ha')

/-- Only first occurrences add something. -/
theorem extend_filterMap_eraseDups (f : β → Option α) (seen : List α) :
    ∀ l : List β, extend seen (l.eraseDups.filterMap f) = extend seen (l.filterMap f)
  | [] => rfl
  | b :: l => by
    rw [List.eraseDups_cons]
    cases hf : f b with
    | none =>
      rw [List.filterMap_cons_none hf, List.filterMap_cons_none hf, extend_filterMap_eraseDups]
      exact extend_filterMap_filter (fun a ha => absurd (hf.symm.trans ha) nofun) l
    | some a =>
      rw [List.filterMap_cons_some hf, List.filterMap_cons_some hf, extend_cons, extend_cons,
        extend_filterMap_eraseDups]
      refine extend_filterMap_filter (fun a' ha' => ?_) l
      obtain rfl := Option.some.inj (hf.symm.trans ha')
      split
      · assumption
      · exact List.mem_append_right _ List.mem_cons_self
termination_by l => l.length
decreasing_by all_goals exact Nat.lt_succ_of_le (List.length_filter_le _ _)

end Reachability

/-- Every rule is gathered for one symbol, and once. -/
structure Analysis.Separates (a : Analysis) : Prop where
  nodup (x : SymbolId) : (a.rulesFor x).Nodup
  unique {r : RuleId} {x y : SymbolId} (hx : r ∈ a.rulesFor x) (hy : r ∈ a.rulesFor y) : x = y

namespace State

variable {rules : Array Rule} {a : Analysis} {symbolCount terminalCount : Nat}

/-- Repeated items of a kernel call for nothing new. -/
theorem leading_eraseDups (kernel : List Item) :
    leading rules a kernel.eraseDups = leading rules a kernel := by
  simp only [leading, expected, List.filter_filterMap, Reachability.explore,
    Reachability.extend_filterMap_eraseDups]

/-- **A state is the closure of its kernel.** -/
theorem closure_kernel (kernel : List Item) :
    closure rules a (closure rules a kernel).kernel = closure rules a kernel := by
  simp [closure, leading_eraseDups, List.contains_eq_mem]

theorem separates_compute :
    (Analysis.compute (productions rules) symbolCount terminalCount).Separates where
  nodup := Analysis.nodup_rulesFor
  unique hx hy := by
    obtain ⟨-, -, rule, hr, rfl⟩ := mem_rulesFor_iff.1 hx
    obtain ⟨-, -, rule', hr', rfl⟩ := mem_rulesFor_iff.1 hy
    rw [Option.some.inj (hr.symm.trans hr')]

theorem nodup_predicted (ha : a.Separates) (x : SymbolId) : (predicted a x).Nodup :=
  (ha.nodup x).map fun _ _ h => congrArg Item.rule h

theorem eq_of_mem_predicted (ha : a.Separates) {i : Item} {x y : SymbolId}
    (hx : i ∈ predicted a x) (hy : i ∈ predicted a y) : x = y := by
  obtain ⟨r, hr, rfl⟩ := List.mem_map.1 hx
  obtain ⟨r', hr', heq⟩ := List.mem_map.1 hy
  obtain rfl : r' = r := congrArg Item.rule heq
  exact ha.unique hr hr'

/-- **No item is in a state twice**: it is predicted for its left-hand side only. -/
theorem nodup_items_closure (ha : a.Separates) (kernel : List Item) :
    (closure rules a kernel).items.Nodup := by
  refine List.nodup_append.2 ⟨Distinct.nodup_eraseDups _, List.Nodup.filter _ ?_, ?_⟩
  · exact List.nodup_flatMap.2 ⟨fun x _ => nodup_predicted ha x,
      (Reachability.nodup_explore ..).imp fun hne i hi hi' => hne (eq_of_mem_predicted ha hi hi')⟩
  · rintro i hi i' hi' rfl
    have hnew : i ∉ kernel := by simpa using (List.mem_filter.1 hi').2
    exact hnew (List.mem_eraseDups.1 hi)

end State

namespace Collection

variable {rules : Array Rule} {a : Analysis} {limits : Limits} {states states' : Array State}

/-! ## One state for each kernel -/

/-- No two states have the same kernel. -/
def Distinct (states : Array State) : Prop :=
  ∀ (p q : StateId) (s s' : State), states[p]? = some s → states[q]? = some s' →
    (∀ i, i ∈ s.kernel ↔ i ∈ s'.kernel) → p = q

theorem distinct_push {state : State} (h : Distinct states)
    (hnew : ∀ s ∈ states, ¬ ∀ i, i ∈ s.kernel ↔ i ∈ state.kernel) :
    Distinct (states.push state) := by
  intro p q s s' hp hq hk
  rw [Array.getElem?_push] at hp hq
  split at hp
  · next hlast =>
    obtain rfl := Option.some.inj hp
    split at hq
    · next hlast' => exact hlast.trans hlast'.symm
    · exact absurd (fun i => (hk i).symm) (hnew s' (Array.mem_of_getElem? hq))
  · split at hq
    · obtain rfl := Option.some.inj hq
      exact absurd hk (hnew s (Array.mem_of_getElem? hp))
    · exact h p q s s' hp hq hk

/-- A kernel that is found nowhere gets a state of its own. -/
theorem Distinct.push_closure {kernel : List Item} (hd : Distinct states)
    (hnone : states.findIdx? (·.hasKernel kernel) = none) :
    Distinct (states.push (State.closure rules a kernel)) := by
  refine distinct_push hd fun s hs hk => ?_
  have hfound : s.hasKernel kernel = true :=
    State.hasKernel_iff.2 fun i => (hk i).trans State.mem_kernel_closure
  exact absurd hfound (by simpa using Array.findIdx?_eq_none_iff.1 hnone s hs)

/-- The states are searched for a kernel before it gets a new one. -/
theorem Distinct.of_stateOf {kernel : List Item} {q : StateId} (hd : Distinct states)
    (h : stateOf rules a limits states kernel = .ok (q, states')) : Distinct states' := by
  unfold stateOf at h
  split at h
  · obtain ⟨-, rfl⟩ := Prod.mk.inj (Except.ok.inj h)
    exact hd
  · next hnone =>
    split at h
    · obtain ⟨-, rfl⟩ := Prod.mk.inj (Except.ok.inj h)
      exact hd.push_closure hnone
    · exact nomatch h

theorem Distinct.of_follow {state : State} {xs : List SymbolId} {transitions : Transitions}
    (hd : Distinct states)
    (h : follow rules a limits state xs states = .ok (transitions, states')) :
    Distinct states' := by
  induction xs generalizing states transitions with
  | nil =>
    obtain ⟨-, rfl⟩ := Prod.mk.inj (Except.ok.inj h)
    exact hd
  | cons x xs ih =>
    obtain ⟨⟨q, states₁⟩, h₁, h⟩ := Except.bind_eq_ok h
    obtain ⟨⟨rest, states₂⟩, h₂, h⟩ := Except.bind_eq_ok h
    obtain ⟨-, rfl⟩ := Prod.mk.inj (Except.ok.inj h)
    exact ih (hd.of_stateOf h₁) h₂

/-- **No two states of a collection have the same kernel.** -/
theorem distinct_of_canonical {c : Collection} (h : canonical rules a limits = .ok c) :
    Distinct c.states := by
  obtain ⟨⟨q, states⟩, h₀, h⟩ := Except.bind_eq_ok h
  have hempty : Distinct #[] := fun p q s s' hp => by simp at hp
  exact complete_induction (p := fun c => Distinct c.states)
    (fun c state ts states hd hs hf => hd.of_follow hf) (hempty.of_stateOf h₀) h

/-! ## Closures -/

/-- What is built begins with the closure of the start rule. -/
theorem getElem?_initial_of_canonical {c : Collection} (h : canonical rules a limits = .ok c) :
    c.states[StateId.initial]? = some (State.closure rules a [⟨RuleId.start, 0⟩]) := by
  obtain ⟨⟨q, states⟩, h₀, h⟩ := Except.bind_eq_ok h
  have hfirst : states[StateId.initial]? = some (State.closure rules a [⟨RuleId.start, 0⟩]) := by
    rcases stateOf_cases h₀ with ⟨-, s, hs, -⟩ | ⟨-, -, rfl⟩
    · simp at hs
    · rfl
  refine (complete_induction (p := fun c => Growing rules a limits c ∧
    c.states[StateId.initial]? = _) (fun c state ts states hc hs hf => ?_)
    ⟨growing_of_stateOf h₀, hfirst⟩ h).2
  obtain ⟨-, hgrows, -⟩ := of_follow hc.1.toClosed hf
  exact ⟨hc.1.step hs hf, hgrows _ _ hc.2⟩

theorem closure_of_canonical {c : Collection} (h : canonical rules a limits = .ok c) {q : StateId}
    {s : State} (hs : c.states[q]? = some s) : s = State.closure rules a s.kernel := by
  obtain ⟨⟨q₀, states⟩, h₀, h⟩ := Except.bind_eq_ok h
  obtain ⟨kernel, rfl⟩ := ((growing_of_stateOf h₀).of_complete h).closure hs
  exact (State.closure_kernel kernel).symm

/-! ## The collection and its table -/

end Collection

/-- A state that the cells of a table lead to from the initial state. -/
inductive CellTable.Reached (t : CellTable) : StateId → Prop
  | initial : Reached t StateId.initial
  | step {p q : StateId} {x : SymbolId} (h : Reached t p) (hx : (t.cell p x).target? = some q) :
    Reached t q

namespace Collection

/-- **The canonical LR(0) collection of some rules**, with the table of its transitions. -/
structure Exact (rules : Array Rule) (symbols : Registry) (c : Collection) : Prop where
  initial : c.states[StateId.initial]? =
    some (State.closure rules (Automaton.analyze symbols rules) [⟨RuleId.start, 0⟩])
  /-- Every state is the closure of its kernel: it has the items that the kernel calls for. -/
  closure {q : StateId} {s : State} (hs : c.states[q]? = some s) :
    s = State.closure rules (Automaton.analyze symbols rules) s.kernel ∧
      ∀ i, i ∈ s.items ↔ Item.Called rules (· ∈ s.kernel) i
  /-- Kernels with the same items are kernels of one state. -/
  eq_of_kernel {p q : StateId} {s s' : State} (hs : c.states[p]? = some s)
    (hs' : c.states[q]? = some s') (h : ∀ i, i ∈ s.kernel ↔ i ∈ s'.kernel) : p = q
  reached {q : StateId} (hq : q < c.states.size) :
    (c.table (Automaton.analyze symbols rules)).Reached q
  /-- A symbol behind a dot leads to the state of the advanced items. -/
  cell_of_next {q : StateId} {s : State} {x : SymbolId} (hs : c.states[q]? = some s)
    (hx : ∃ i ∈ s.items, i.next? rules = some x) :
    ∃ n s', c.states[n]? = some s' ∧
      (∀ i, i ∈ s'.kernel ↔ ∃ j ∈ s.items, j.next? rules = some x ∧ i = j.advance) ∧
      (c.table (Automaton.analyze symbols rules)).cell q x =
        if x < symbols.terminalCount then .shift n else .goto n
  /-- No other symbol leads anywhere. -/
  cell_of_not_next {q : StateId} {s : State} {x : SymbolId} (hs : c.states[q]? = some s)
    (hx : ¬ ∃ i ∈ s.items, i.next? rules = some x) :
    (c.table (Automaton.analyze symbols rules)).cell q x = .error

variable {rules : Array Rule} {symbols : Registry} {limits : Limits} {c : Collection}
  {accept start : SymbolId}

/-- No state of the collection holds an item twice. -/
theorem nodup_items_of_canonical
    (h : canonical rules (Automaton.analyze symbols rules) limits = .ok c) {q : StateId} {s : State}
    (hs : c.states[q]? = some s) : s.items.Nodup := by
  rw [closure_of_canonical h hs]
  exact State.nodup_items_closure State.separates_compute _

/-- The cell of an edge leads where the edge leads. -/
theorem target?_cell_of_edge (ha : Augmented rules accept start symbols.size symbols.terminalCount)
    (hc : Canonical rules c) {p q : StateId} {x : SymbolId} (he : c.Edge p x q) :
    ((c.table (Automaton.analyze symbols rules)).cell p x).target? = some q := by
  have hx : x < (Automaton.analyze symbols rules).symbolCount :=
    Automaton.symbolCount_analyze ▸ hc.lt_symbolCount_of_edge ha he
  rw [cell_of_edge hc he hx]
  split <;> rfl

/-- Every state is reached from the initial one, as it was found from a state before it. -/
theorem reached_of_lt (ha : Augmented rules accept start symbols.size symbols.terminalCount)
    (hc : Canonical rules c) {q : StateId} (hq : q < c.states.size) :
    (c.table (Automaton.analyze symbols rules)).Reached q := by
  induction q using Nat.strong_induction_on with
  | _ q ih =>
    by_cases h₀ : q = StateId.initial
    · exact h₀ ▸ .initial
    · obtain ⟨p, x, hp, he⟩ := hc.exists_edge_to hq h₀
      exact .step (ih p hp (Nat.lt_trans hp hq)) (target?_cell_of_edge ha hc he)

theorem kernel_iff {q : StateId} {s : State} (hs : c.states[q]? = some s) {i : Item} :
    c.Kernel q i ↔ i ∈ s.kernel :=
  ⟨fun ⟨_, hs', hi⟩ => Option.some.inj (hs'.symm.trans hs) ▸ hi, fun hi => ⟨s, hs, hi⟩⟩

theorem holds_iff {q : StateId} {s : State} (hs : c.states[q]? = some s) {i : Item} :
    c.Holds q i ↔ i ∈ s.items :=
  ⟨fun ⟨_, hs', hi⟩ => Option.some.inj (hs'.symm.trans hs) ▸ hi, fun hi => ⟨s, hs, hi⟩⟩

/-- **What is built from the rules of a text is their canonical LR(0) collection**: neither a state
nor a transition is lost, and no two states are one. -/
theorem exact_of_canonical {registry : Registry} {flattening : Limits} {source : String}
    {grammar : Grammar}
    (hread : (Automaton.readRules flattening source).runOn registry =
      (.ok (grammar, rules), symbols))
    (h : canonical rules (Automaton.analyze symbols rules) limits = .ok c) :
    Exact rules symbols c := by
  obtain ⟨-, accept, ha⟩ := Automaton.augmented_of_readRules hread
  have hc := Automaton.canonical_of_augmented ha h
  refine ⟨getElem?_initial_of_canonical h, fun {q s} hs => ⟨closure_of_canonical h hs, fun i => ?_⟩,
    fun {p q s s'} => distinct_of_canonical h p q s s', reached_of_lt ha hc,
    fun {q s x} hs hx => ?_, fun {q s x} hs hx => ?_⟩
  · rw [← holds_iff hs, hc.holds_iff]
    exact ⟨.imp fun _ => (kernel_iff hs).1, .imp fun _ => (kernel_iff hs).2⟩
  · obtain ⟨n, he⟩ : ∃ n, c.Edge q x n :=
      hc.exists_edge_iff.2 (by simpa only [holds_iff hs] using hx)
    have hlt : x < (Automaton.analyze symbols rules).symbolCount :=
      Automaton.symbolCount_analyze ▸ hc.lt_symbolCount_of_edge ha he
    have hn := Array.getElem?_eq_getElem (hc.lt_of_edge he)
    refine ⟨n, _, hn, fun i => ?_, ?_⟩
    · rw [← kernel_iff hn, hc.kernel_of_edge he]
      simp only [holds_iff hs]
    · rw [cell_of_edge hc he hlt, Automaton.terminalCount_analyze]
  · refine cell_of_not_edge fun q' he => hx ?_
    simpa only [holds_iff hs] using hc.exists_edge_iff.1 ⟨q', he⟩

/-- Two brackets lead to the same items, found in opposite orders: they have one state on `NUM`. -/
theorem exact_of_canonical_brackets : ∃ (grammar : Grammar) (rules : Array Rule)
    (symbols : Registry) (c : Collection),
    (Automaton.readRules {}
      "s = '(' p | '[' q; p = a | b; q = b | a; a = NUM '+'; b = NUM '-';").runOn .standard =
      (.ok (grammar, rules), symbols) ∧
    canonical rules (Automaton.analyze symbols rules) {} = .ok c ∧ c.states.size = 13 ∧
    Exact rules symbols c := by
  have hok : (match (Automaton.readRules {}
        "s = '(' p | '[' q; p = a | b; q = b | a; a = NUM '+'; b = NUM '-';").runOn .standard with
      | (.ok (_, rules), symbols) =>
        (canonical rules (Automaton.analyze symbols rules) {}).toOption.any (·.states.size = 13)
      | _ => false) = true := by
    decide +kernel
  split at hok
  · next grammar rules symbols hread =>
    obtain ⟨c, h, hsize⟩ := Except.exists_of_any_toOption hok
    exact ⟨grammar, rules, symbols, c, hread, h, of_decide_eq_true hsize,
      exact_of_canonical hread h⟩
  · exact nomatch hok

end Collection
end ShiftReduce

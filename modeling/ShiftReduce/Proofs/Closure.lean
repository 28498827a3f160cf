import ShiftReduce.Proofs.Kernels

/-!
# Proofs/Closure — the closure of a kernel, item by item

A closure can be found by one loop over a list of items that grows while the loop goes over it: each
item adds the rules of the nonterminal behind its dot, unless they are in the list (`Visits`,
`State.callees`).  `State.closure` looks for the nonterminals first and has their rules behind the
kernel; these are the items of that loop in the same order, whatever the kernel is, and no items but
those of left corners (`State.closes_closure`).  A rule that has no number can be in no item, so
that it is left out, and what it begins with is not looked for.
-/

namespace ShiftReduce

open ShiftReduce.Derivation

/-! ## Loops over growing lists -/

namespace Reachability

variable {α : Type} [BEq α]

/-- The loop over the values seen from a position on, which adds the successors of each behind them,
ends with the values `final`. -/
inductive Visits (next : α → List α) : Nat → List α → List α → Prop
  | done {i : Nat} {seen : List α} (h : seen[i]? = none) : Visits next i seen seen
  | step {i : Nat} {seen final : List α} {a : α} (ha : seen[i]? = some a)
    (h : Visits next (i + 1) (extend seen (next a)) final) : Visits next i seen final

theorem extend_append (seen new new' : List α) :
    extend seen (new ++ new') = extend (extend seen new) new' := List.foldl_append

variable [LawfulBEq α]

/-- Values without repetitions are added as far as they are new. -/
theorem extend_of_nodup {new : List α} (h : new.Nodup) (seen : List α) :
    extend seen new = seen ++ new.filter (!seen.contains ·) := by
  induction new generalizing seen with
  | nil => simp [extend]
  | cons a new ih =>
    obtain ⟨ha, hnew⟩ := List.nodup_cons.1 h
    rw [extend_cons, ih hnew]
    by_cases hseen : a ∈ seen
    · simp [hseen]
    · have hrest : new.filter (fun b => !(seen ++ [a]).contains b) =
          new.filter (!seen.contains ·) := by
        refine List.filter_congr fun b hb => ?_
        have hne : b ≠ a := fun hba => ha (hba ▸ hb)
        simp [hne]
      rw [if_neg hseen, hrest, List.append_assoc, List.singleton_append,
        List.filter_cons_of_pos (by simpa using hseen)]

theorem extend_of_subset {seen new : List α} (h : ∀ a ∈ new, a ∈ seen) :
    extend seen new = seen := by
  induction new with
  | nil => rfl
  | cons a new ih =>
    obtain ⟨ha, hnew⟩ := List.forall_mem_cons.1 h
    rw [extend_cons, if_pos ha, ih hnew]

/-- First occurrences are kept. -/
theorem extend_nil_eq_eraseDups (new : List α) : extend [] new = new.eraseDups := by
  induction new using List.reverseRecOn with
  | nil => rfl
  | append_singleton new a ih =>
    rw [extend_append, ih, Distinct.eraseDups_concat, extend_cons]
    simp only [List.mem_eraseDups]
    rfl

/-- A bound on the visits does no harm if the values seen are no more than it. -/
theorem visits_visit {next : α → List α} {values seen : List α} {n i : Nat}
    (hu : ∀ a ∈ visit next n i seen, a ∈ values) (hn : values.length ≤ n + i) (hd : seen.Nodup) :
    Visits next i seen (visit next n i seen) := by
  induction n generalizing i seen with
  | zero =>
    have hle : seen.length ≤ values.length := hd.length_le_of_subset hu
    exact .done (List.getElem?_eq_none (by omega))
  | succ n ih =>
    rw [visit] at hu ⊢
    split at hu
    · next hnone => exact .done hnone
    · next a ha => exact .step ha (ih hu (by omega) (nodup_extend _ hd))

/-- **What is explored is what the loop ends with**, provided that it is among `n` values. -/
theorem visits_explore {next : α → List α} {n : Nat} {start values : List α}
    (hu : ∀ a, Reaches next start a → a ∈ values) (hn : values.length ≤ n) :
    Visits next 0 (extend [] start) (explore next n start) :=
  visits_visit (fun a ha => hu a ((mem_explore_iff hu hn).1 ha)) hn (nodup_extend _ List.nodup_nil)

end Reachability

/-! ## Items in the order in which they are called for -/

namespace State

open Reachability

/-- The items that an item calls for: the rules of the nonterminal behind its dot. -/
def callees (rules : Array Rule) (a : Analysis) (i : Item) : List Item :=
  match i.next? rules with
  | some x => if a.isTerminal x then [] else predicted a x
  | none => []

/-- A kernel, and the rules of some nonterminals. -/
def withRules (a : Analysis) (kernel : List Item) (xs : List SymbolId) : State where
  kernel := kernel.eraseDups
  added := (xs.flatMap (predicted a)).filter (!kernel.contains ·)

variable {rules : Array Rule} {a : Analysis} {kernel : List Item} {symbolCount terminalCount : Nat}

theorem closure_eq_withRules :
    closure rules a kernel = withRules a kernel (leading rules a kernel) := rfl

theorem expected_append (items items' : List Item) :
    expected rules a (items ++ items') = expected rules a items ++ expected rules a items' := by
  simp [expected]

theorem callees_eq (i : Item) :
    callees rules a i = (expected rules a [i]).flatMap (predicted a) := by
  unfold callees expected
  cases hi : i.next? rules with
  | none => simp [hi]
  | some x => cases hx : a.isTerminal x <;> simp [hi, hx]

theorem items_withRules_append (xs ys : List SymbolId) :
    (withRules a kernel (xs ++ ys)).items =
      (withRules a kernel xs).items ++ (ys.flatMap (predicted a)).filter (!kernel.contains ·) := by
  simp [items, withRules]

/-- **Rules are added for the nonterminals that are new**, each block where its nonterminal is. -/
theorem extend_items_withRules (ha : a.Separates) (xs ys : List SymbolId) :
    extend (withRules a kernel xs).items (ys.flatMap (predicted a)) =
      (withRules a kernel (extend xs ys)).items := by
  induction ys generalizing xs with
  | nil => rfl
  | cons y ys ih =>
    rw [List.flatMap_cons, extend_append, extend_cons, ← ih]
    congr 1
    split
    · next hy =>
      refine extend_of_subset fun i hi => ?_
      simp only [items, withRules, List.mem_append, List.mem_eraseDups, List.mem_filter,
        List.contains_eq_mem, Bool.not_eq_true', decide_eq_false_iff_not]
      exact or_iff_not_imp_left.2 fun hk => ⟨List.mem_flatMap.2 ⟨y, hy, hi⟩, hk⟩
    · next hy =>
      rw [extend_of_nodup (nodup_predicted ha y), items_withRules_append, List.flatMap_singleton]
      congr 1
      refine List.filter_congr fun i hi => ?_
      -- an item of `y` is no item of another nonterminal
      have hnew : i ∉ xs.flatMap (predicted a) := fun h => by
        obtain ⟨x, hx, hi'⟩ := List.mem_flatMap.1 h
        exact hy (eq_of_mem_predicted ha hi hi' ▸ hx)
      simp [items, withRules, hnew]

/-- Items of the kernel call for nothing new once the kernel has been gone over. -/
theorem extend_expected_filter {seen : List SymbolId}
    (hseen : ∀ x ∈ expected rules a kernel, x ∈ seen) (is : List Item) :
    extend seen (expected rules a (is.filter (!kernel.contains ·))) =
      extend seen (expected rules a is) := by
  induction is generalizing seen with
  | nil => rfl
  | cons i is ih =>
    have hcons : expected rules a (i :: is) = expected rules a [i] ++ expected rules a is :=
      expected_append [i] is
    rw [hcons, extend_append]
    by_cases hi : i ∈ kernel
    · have hsub : ∀ x ∈ expected rules a [i], x ∈ seen := fun x hx =>
        hseen x (((List.singleton_sublist.2 hi).filterMap _).filter _ |>.subset hx)
      rw [extend_of_subset hsub, List.filter_cons_of_neg (by simpa using hi), ih hseen]
    · rw [List.filter_cons_of_pos (by simpa using hi), ← List.singleton_append, expected_append,
        extend_append]
      exact ih fun x hx => (mem_extend ..).2 (.inl (hseen x hx))

/-- **The loop goes over a block of items**: it adds the rules of the nonterminals behind their
dots. -/
theorem visits_block (ha : a.Separates) (is rest : List Item) {final : List Item}
    {xs : List SymbolId} {n : Nat} (hdrop : (withRules a kernel xs).items.drop n = is ++ rest)
    (h : Visits (callees rules a) (n + is.length)
      (withRules a kernel (extend xs (expected rules a is))).items final) :
    Visits (callees rules a) n (withRules a kernel xs).items final := by
  induction is generalizing n xs rest with
  | nil => exact h
  | cons i is ih =>
    have hn : (withRules a kernel xs).items[n]? = some i := by
      rw [← List.head?_drop, hdrop]
      rfl
    refine .step hn ?_
    rw [callees_eq, extend_items_withRules ha]
    obtain ⟨added, hadded⟩ :=
      prefix_extend (withRules a kernel xs).items ((expected rules a [i]).flatMap (predicted a))
    rw [extend_items_withRules ha] at hadded
    refine ih (rest ++ added) ?_ ?_
    · have hle : n + 1 ≤ (withRules a kernel xs).items.length := (List.getElem?_eq_some_iff.1 hn).1
      rw [← hadded, List.drop_append_of_le_length hle, ← List.drop_drop, hdrop]
      simp
    · rw [← extend_append, ← expected_append, List.singleton_append, Nat.add_assoc, Nat.add_comm 1]
      exact h

/-- **The loop over items follows the loop over nonterminals**: while the latter is at a
nonterminal, the former goes over its rules. -/
theorem visits_items (ha : a.Separates) {j : Nat} {xs final : List SymbolId}
    (h : Visits (fun x => expected rules a (predicted a x)) j xs final)
    (hkernel : ∀ x ∈ expected rules a kernel, x ∈ xs) :
    Visits (callees rules a) (withRules a kernel (xs.take j)).items.length
      (withRules a kernel xs).items (withRules a kernel final).items := by
  induction h with
  | done hnone =>
    rw [List.take_of_length_le (List.getElem?_eq_none_iff.1 hnone)]
    exact .done (List.getElem?_eq_none (Nat.le_refl _))
  | @step j xs final x hx h ih =>
    obtain ⟨hj, rfl⟩ := List.getElem?_eq_some_iff.1 hx
    refine visits_block ha ((predicted a xs[j]).filter (!kernel.contains ·))
      (((xs.drop (j + 1)).flatMap (predicted a)).filter (!kernel.contains ·)) ?_ ?_
    · rw [← List.filter_append, ← List.flatMap_cons, ← List.drop_eq_getElem_cons hj]
      have hitems : (withRules a kernel xs).items = (withRules a kernel (xs.take j)).items ++
          ((xs.drop j).flatMap (predicted a)).filter (!kernel.contains ·) := by
        rw [← items_withRules_append, List.take_append_drop]
      rw [hitems, List.drop_left]
    · rw [extend_expected_filter hkernel]
      have htake : (extend xs (expected rules a (predicted a xs[j]))).take (j + 1) =
          xs.take j ++ [xs[j]] := by
        obtain ⟨added, hadded⟩ := prefix_extend xs (expected rules a (predicted a xs[j]))
        rw [← hadded, List.take_append_of_le_length hj, List.take_succ_eq_append_getElem hj]
      have hlength := congrArg (fun xs => (withRules a kernel xs).items.length) htake
      simp only [items_withRules_append, List.length_append, List.flatMap_singleton] at hlength
      rw [← hlength]
      exact ih fun x hx => (mem_extend ..).2 (.inl (hkernel x hx))

/-- The loop begins with the kernel. -/
theorem visits_kernel (ha : a.Separates) {final : List SymbolId}
    (h : Visits (fun x => expected rules a (predicted a x)) 0
      (extend [] (expected rules a kernel)) final) :
    Visits (callees rules a) 0 (extend [] kernel) (withRules a kernel final).items := by
  have hstart : (withRules a kernel []).items = extend [] kernel := by
    simp [withRules, items, extend_nil_eq_eraseDups]
  have hexpected : extend [] (expected rules a kernel.eraseDups) =
      extend [] (expected rules a kernel) := by
    simp only [expected, List.filter_filterMap, extend_filterMap_eraseDups]
  have hlength : (withRules a kernel []).items.length = kernel.eraseDups.length := by
    simp [withRules, items]
  rw [← hstart]
  refine visits_block ha kernel.eraseDups [] (by simp [withRules, items]) ?_
  rw [hexpected, Nat.zero_add, ← hlength]
  exact visits_items ha h fun _ hx => (mem_extend ..).2 (.inr hx)

/-- The loop over nonterminals ends with the left corners. -/
theorem visits_leading (hrhs : ∀ p ∈ productions rules, ∀ x ∈ p.rhs, x < symbolCount) :
    Visits (fun x => expected rules (.compute (productions rules) symbolCount terminalCount)
        (predicted (.compute (productions rules) symbolCount terminalCount) x)) 0
      (extend [] (expected rules (.compute (productions rules) symbolCount terminalCount) kernel))
      (leading rules (.compute (productions rules) symbolCount terminalCount) kernel) :=
  visits_explore (fun _ h => List.mem_range.2 ((leftCorner_of_reaches h).lt hrhs))
    (by rw [List.length_range, symbolCount_compute])

/-! ## Closures -/

/-- What is added to a kernel: the numbered rules of its left corners, as far as they are new. -/
theorem mem_added_closure (hrhs : ∀ p ∈ productions rules, ∀ x ∈ p.rhs, x < symbolCount)
    {i : Item} :
    i ∈ (closure rules (.compute (productions rules) symbolCount terminalCount) kernel).added ↔
      i ∉ kernel ∧ i.dot = 0 ∧ i.rule ≤ indexSpace ∧
        ∃ rule, rules[i.rule]? = some rule ∧ LeftCorner rules terminalCount kernel rule.lhs := by
  simp only [closure, List.mem_filter, List.mem_flatMap, mem_leading_iff hrhs, mem_predicted_iff,
    mem_rulesFor_iff, List.contains_eq_mem, Bool.not_eq_true', decide_eq_false_iff_not]
  constructor
  · rintro ⟨⟨x, hx, hdot, -, hn, rule, hr, rfl⟩, hnew⟩
    exact ⟨hnew, hdot, hn, rule, hr, hx⟩
  · rintro ⟨hnew, hdot, hn, rule, hr, hx⟩
    exact ⟨⟨_, hx, hdot, hx.lt hrhs, hn, rule, hr, rfl⟩, hnew⟩

/-- **A state is the closure of a kernel.** -/
structure Closes (rules : Array Rule) (a : Analysis) (kernel : List Item) (s : State) : Prop where
  /-- The loop over the growing list of items begins with the kernel and ends, and these are the
  items that it ends with. -/
  visits : Visits (callees rules a) 0 (extend [] kernel) s.items
  nodup : s.items.Nodup
  mem_kernel {i : Item} : i ∈ s.kernel ↔ i ∈ kernel
  /-- The items of the kernel are in the order of their first occurrences. -/
  pairwise_kernel : s.kernel.Pairwise fun i j => kernel.idxOf i < kernel.idxOf j
  /-- Behind the kernel are the rules of the left corners, as far as they are not in it and there
  are words for their numbers. -/
  mem_added {i : Item} : i ∈ s.added ↔ i ∉ kernel ∧ i.dot = 0 ∧ i.rule ≤ indexSpace ∧
    ∃ rule, rules[i.rule]? = some rule ∧ LeftCorner rules a.terminalCount kernel rule.lhs

/-- **A closure is found item by item, and is the least one**: it has the items of the kernel, and
the numbered rules of those nonterminals alone that can stand in front of what follows a dot of the
kernel.  The kernel may be any list of items, and there may be more rules than numbers for them. -/
theorem closes_closure (hrhs : ∀ p ∈ productions rules, ∀ x ∈ p.rhs, x < symbolCount)
    (kernel : List Item) :
    Closes rules (.compute (productions rules) symbolCount terminalCount) kernel
      (closure rules (.compute (productions rules) symbolCount terminalCount) kernel) where
  visits := by
    rw [closure_eq_withRules]
    exact visits_kernel separates_compute (visits_leading hrhs)
  nodup := nodup_items_closure separates_compute kernel
  mem_kernel := mem_kernel_closure
  pairwise_kernel := Distinct.pairwise_eraseDups kernel
  mem_added {i} := by
    rw [Analysis.bounded_compute.terminalCount_eq]
    exact mem_added_closure hrhs

/-- A kernel with a repeated item, a rule that is called for as well, a complete item and one with
its dot past the end; the nonterminals behind its dots begin with each other. -/
theorem closes_closure_mutual : ∃ (rules : Array Rule) (kernel : List Item),
    (∀ p ∈ productions rules, ∀ x ∈ p.rhs, x < 8) ∧
    kernel = [⟨1, 1⟩, ⟨5, 0⟩, ⟨1, 1⟩, ⟨6, 9⟩, ⟨2, 1⟩] ∧
    Closes rules (.compute (productions rules) 8 3) kernel
      (closure rules (.compute (productions rules) 8 3) kernel) ∧
    closure rules (.compute (productions rules) 8 3) kernel =
      ⟨[⟨1, 1⟩, ⟨5, 0⟩, ⟨6, 9⟩, ⟨2, 1⟩], [⟨3, 0⟩, ⟨4, 0⟩, ⟨6, 0⟩]⟩ := by
  -- 3 → 4;  4 → 4 5 | 5;  5 → 6 2 | ε;  6 → 5 2 | 2;  7 → 7 2
  let rules : Array Rule := #[⟨⟨3, [4]⟩, .forward⟩, ⟨⟨4, [4, 5]⟩, .forward⟩, ⟨⟨4, [5]⟩, .forward⟩,
    ⟨⟨5, [6, 2]⟩, .forward⟩, ⟨⟨5, []⟩, .forward⟩, ⟨⟨6, [5, 2]⟩, .forward⟩, ⟨⟨6, [2]⟩, .forward⟩,
    ⟨⟨7, [7, 2]⟩, .forward⟩]
  have hrhs : ∀ p ∈ productions rules, ∀ x ∈ p.rhs, x < 8 := by decide
  exact ⟨rules, _, hrhs, rfl, closes_closure hrhs _, by decide +kernel⟩

/-- One rule more than there are numbers, all with the nonterminal behind the dot on their left: the
last one is in no closure. -/
theorem exists_rule_not_added : ∃ (rules : Array Rule) (kernel : List Item) (rule : Rule),
    rules = Array.replicate (indexSpace + 2) ⟨⟨3, [3]⟩, .forward⟩ ∧ kernel = [⟨0, 0⟩] ∧
    (∀ p ∈ productions rules, ∀ x ∈ p.rhs, x < 4) ∧
    rules[indexSpace + 1]? = some rule ∧ 3 ≤ rule.lhs ∧
    (∃ i ∈ kernel, i.next? rules = some rule.lhs) ∧ ⟨indexSpace + 1, 0⟩ ∉ kernel ∧
    ⟨indexSpace + 1, 0⟩ ∉ (closure rules (.compute (productions rules) 4 3) kernel).items := by
  let rule : Rule := ⟨⟨3, [3]⟩, .forward⟩
  let rules : Array Rule := Array.replicate (indexSpace + 2) rule
  have hrule {r : RuleId} (h : r < indexSpace + 2) : rules[r]? = some rule := by
    rw [Array.getElem?_replicate, if_pos h]
  have hrhs : ∀ p ∈ productions rules, ∀ x ∈ p.rhs, x < 4 := by
    intro p hp x hx
    obtain ⟨r, rule', hr, rfl⟩ := mem_productions.1 hp
    obtain rfl := Option.some.inj ((hrule (by simpa [rules] using
      (Array.getElem?_eq_some_iff.1 hr).1)).symm.trans hr)
    obtain rfl := List.mem_singleton.1 hx
    decide
  have hnext : Item.next? rules ⟨0, 0⟩ = some rule.lhs :=
    Item.next?_eq_some_iff.2 ⟨rule, hrule (by decide), rfl⟩
  refine ⟨rules, [⟨0, 0⟩], rule, rfl, rfl, hrhs, hrule (Nat.lt_succ_self _), Nat.le_refl 3,
    ⟨_, List.mem_cons_self, hnext⟩, by decide, fun h => ?_⟩
  rcases List.mem_append.1 h with h | h
  · exact absurd (mem_kernel_closure.1 h) (by decide)
  · obtain ⟨-, -, hle, -⟩ := (mem_added_closure hrhs).1 h
    exact absurd hle (Nat.not_succ_le_self _)

end State
end ShiftReduce

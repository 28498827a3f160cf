import Mathlib.Data.List.ProdSigma
import ShiftReduce.Proofs.Labelling

/-!
# Proofs/Sufficiency — limits that are sure to be large enough

Whether a grammar can be compiled within some limits is known before it is, from a few numbers.  If
some kernels have the one of the start rule among them, and with a kernel all that it leads to
(`Collection.Suffice`), there are no more states than these kernels, for no two states have the same
kernel.  There are no more labels than states and nonterminals, for a state has one goto over a
nonterminal; and no more labelled rules than states and rules.  Where the limits are not below these
numbers, nothing can fail (`Suffice.exists_canonical`, `LabelledGrammar.exists_build`).

Labelled rules may be many.  The rules of Polish notation (`Polish.rules`) all begin in front of
every operand: `n` operators with `k` operands each have `n * k * n` labelled rules at least
(`Polish.exists_build`).
-/

namespace ShiftReduce

open ShiftReduce.Derivation

/-! ## States -/

namespace Collection

variable {rules : Array Rule} {a : Analysis} {limits : Limits} {states : Array State}
  {symbolCount terminalCount : Nat} {kernels : List (List Item)}

/-- A kernel with the items of one of these. -/
def Among (kernels : List (List Item)) (kernel : List Item) : Prop :=
  ∃ K ∈ kernels, ∀ i, i ∈ kernel ↔ i ∈ K

/-- Kernels that no symbol leads out of. -/
structure Suffice (rules : Array Rule) (kernels : List (List Item)) : Prop where
  start : Among kernels [⟨RuleId.start, 0⟩]
  next {K : List Item} (hK : K ∈ kernels) {i : Item} (hi : Item.Called rules (· ∈ K) i)
    {x : SymbolId} (hx : i.next? rules = some x) : ∃ K' ∈ kernels, ∀ j, j ∈ K' ↔
      ∃ i, Item.Called rules (· ∈ K) i ∧ i.next? rules = some x ∧ j = i.advance

/-- States whose kernels are among these, no two of them with the same one. -/
structure Drawn (kernels : List (List Item)) (states : Array State) : Prop where
  distinct : Distinct states
  among {q : StateId} {s : State} (hs : states[q]? = some s) : Among kernels s.kernel

/-- There are no more states than kernels. -/
theorem Drawn.size_le (h : Drawn kernels states) : states.size ≤ kernels.length := by
  have hget (q : Fin states.size) : states[q.val]? = some states[q] :=
    Array.getElem?_eq_getElem q.isLt
  choose K hK hkernel using fun q => h.among (hget q)
  have hinj : Function.Injective K := fun p q heq =>
    Fin.ext (h.distinct p q _ _ (hget p) (hget q) fun i => by rw [hkernel p, hkernel q, heq])
  have hsubset : (List.finRange states.size).map K ⊆ kernels := by
    intro k hk
    obtain ⟨q, -, rfl⟩ := List.mem_map.1 hk
    exact hK q
  simpa using ((List.nodup_finRange _).map hinj).length_le_of_subset hsubset

variable (hsize : kernels.length ≤ maxStates limits)

include hsize

/-- There is a number for one of the kernels, whether it is found or not. -/
theorem Drawn.exists_stateOf (rules : Array Rule) (a : Analysis) (h : Drawn kernels states)
    {kernel : List Item} (hk : Among kernels kernel) :
    ∃ q states', stateOf rules a limits states kernel = .ok (q, states') ∧
      Drawn kernels states' := by
  unfold stateOf
  cases hfind : states.findIdx? (·.hasKernel kernel) with
  | some q => exact ⟨q, states, rfl, h⟩
  | none =>
    have hpush : Drawn kernels (states.push (State.closure rules a kernel)) := by
      refine ⟨h.distinct.push_closure hfind, fun {q s} hs => ?_⟩
      rw [Array.getElem?_push] at hs
      split at hs
      · obtain rfl := Option.some.inj hs
        obtain ⟨K, hK, hkernel⟩ := hk
        exact ⟨K, hK, fun i => State.mem_kernel_closure.trans (hkernel i)⟩
      · exact h.among hs
    have hlt : states.size < maxStates limits := by
      have hle := hpush.size_le
      rw [Array.size_push] at hle
      exact Nat.lt_of_lt_of_le hle hsize
    exact ⟨_, _, if_pos hlt, hpush⟩

/-- The transitions of a state are found if all they lead to are such kernels. -/
theorem Drawn.exists_follow (h : Drawn kernels states) {state : State} {xs : List SymbolId}
    (hxs : ∀ x ∈ xs, Among kernels (state.advanceOver rules x)) :
    ∃ ts states', follow rules a limits state xs states = .ok (ts, states') ∧
      Drawn kernels states' := by
  induction xs generalizing states with
  | nil => exact ⟨[], states, rfl, h⟩
  | cons x xs ih =>
    obtain ⟨hx, hxs⟩ := List.forall_mem_cons.1 hxs
    obtain ⟨q, states₁, h₁, hdrawn₁⟩ := h.exists_stateOf hsize rules a hx
    obtain ⟨ts, states₂, h₂, hdrawn₂⟩ := ih hdrawn₁ hxs
    refine ⟨(x, q) :: ts, states₂, ?_, hdrawn₂⟩
    simp only [follow, h₁, h₂, bind, Except.bind]

variable (hP : State.Numbered rules symbolCount terminalCount) (hsuffice : Suffice rules kernels)

include hP hsuffice

omit hsize in
/-- A symbol leads from one of the kernels to another one. -/
theorem Suffice.among_advanceOver {state : State}
    (hclosure : ∃ K, state =
      State.closure rules (.compute (productions rules) symbolCount terminalCount) K)
    (hamong : Among kernels state.kernel) {x : SymbolId} (hx : x ∈ state.nextSymbols rules) :
    Among kernels (state.advanceOver rules x) := by
  obtain ⟨kernel, rfl⟩ := hclosure
  obtain ⟨K, hK, hkernel⟩ := hamong
  have hitems {i : Item} : i ∈ (State.closure rules
      (.compute (productions rules) symbolCount terminalCount) kernel).items ↔
        Item.Called rules (· ∈ K) i := by
    rw [State.mem_items_closure hP]
    have hsame (i : Item) : i ∈ kernel ↔ i ∈ K := State.mem_kernel_closure.symm.trans (hkernel i)
    exact ⟨.imp fun i => (hsame i).1, .imp fun i => (hsame i).2⟩
  obtain ⟨i, hi, hnext⟩ := State.mem_nextSymbols.1 hx
  obtain ⟨K', hK', hadvance⟩ := hsuffice.next hK (hitems.1 hi) hnext
  refine ⟨K', hK', fun j => ?_⟩
  rw [State.mem_advanceOver, hadvance]
  simp only [hitems]

/-- A symbol leads from a kernel to a kernel, so no round can fail. -/
theorem Suffice.exists_complete {n : Nat} {c : Collection}
    (hclosed : Closed rules (.compute (productions rules) symbolCount terminalCount) limits
      c.states) (hdrawn : Drawn kernels c.states) :
    ∃ c', complete rules (.compute (productions rules) symbolCount terminalCount) limits n c =
      .ok c' ∧ Drawn kernels c'.states := by
  induction n generalizing c with
  | zero => exact ⟨c, rfl, hdrawn⟩
  | succ n ih =>
    rw [complete]
    split
    · exact ⟨c, rfl, hdrawn⟩
    · next state hs =>
      obtain ⟨ts, states, hf, hdrawn'⟩ := hdrawn.exists_follow hsize fun x hx =>
        hsuffice.among_advanceOver hP (hclosed.closure hs) (hdrawn.among hs) hx
      obtain ⟨c', hc', hall⟩ := ih (c := ⟨states, c.transitions.push ts⟩)
        (of_follow hclosed hf).1 hdrawn'
      refine ⟨c', ?_, hall⟩
      rw [hf]
      exact hc'

/-- **A collection is built if the limits leave room for all kernels.** -/
theorem Suffice.exists_canonical :
    ∃ c, canonical rules (.compute (productions rules) symbolCount terminalCount) limits = .ok c ∧
      Drawn kernels c.states := by
  have hempty : Drawn kernels #[] :=
    ⟨fun p q s s' hp => by simp at hp, fun hs => by simp at hs⟩
  obtain ⟨q, states, h₀, hdrawn⟩ := hempty.exists_stateOf hsize rules
    (.compute (productions rules) symbolCount terminalCount) hsuffice.start
  obtain ⟨c, hc, hall⟩ := hsuffice.exists_complete (n := maxStates limits) (c := ⟨states, #[]⟩)
    hsize hP (growing_of_stateOf h₀).toClosed hdrawn
  refine ⟨c, ?_, hall⟩
  unfold canonical
  rw [h₀]
  exact hc

end Collection

/-! ## Labels -/

namespace LabelledGrammar

open Collection

variable {rules : Array Rule} {c : Collection} {a : Analysis} {limits : Limits}
  {labels : Numbering Label} {accept start base symbolCount terminalCount : Nat}

theorem Grounded.of_mem (hg : Grounded c terminalCount labels) {l : Label}
    (hl : l ∈ labels.toList) : terminalCount ≤ l.symbol ∧ c.Edge l.source l.symbol l.target := by
  obtain ⟨n, hn⟩ := Numbering.mem_toList.1 hl
  exact hg n l hn

/-- A label is known by its state and its nonterminal. -/
theorem Grounded.nodup_sources (hc : Canonical rules c) (hg : Grounded c terminalCount labels) :
    (labels.toList.map fun l => (l.source, l.symbol)).Nodup := by
  refine labels.nodup_toList.map_on ?_
  rintro ⟨x, q, target⟩ hl ⟨x', q', target'⟩ hl' heq
  obtain ⟨rfl, rfl⟩ := Prod.mk.inj heq
  obtain rfl : target = target' := hc.edge_unique (hg.of_mem hl).2 (hg.of_mem hl').2
  rfl

/-- A state has one label for a nonterminal at most. -/
theorem Grounded.size_le (hc : Canonical rules c)
    (ha : Augmented rules accept start symbolCount terminalCount)
    (hg : Grounded c terminalCount labels) :
    labels.size ≤ c.states.size * (symbolCount - terminalCount) := by
  have hsubset : labels.toList.map (fun l => (l.source, l.symbol)) ⊆
      List.range c.states.size ×ˢ List.range' terminalCount (symbolCount - terminalCount) := by
    intro p hp
    obtain ⟨l, hl, rfl⟩ := List.mem_map.1 hp
    obtain ⟨hle, he⟩ := hg.of_mem hl
    obtain ⟨i, hi, -⟩ := hc.exists_edge_iff.1 ⟨_, he⟩
    have hlt : l.symbol < terminalCount + (symbolCount - terminalCount) :=
      (Nat.add_sub_of_le ha.le_symbolCount).symm ▸ hc.lt_symbolCount_of_edge ha he
    exact List.mem_product.2 ⟨List.mem_range.2 (Canonical.lt_of_holds hi),
      List.mem_range'_1.2 ⟨hle, hlt⟩⟩
  have hle := (hg.nodup_sources hc).length_le_of_subset hsubset
  rw [List.length_map, List.length_product, List.length_range, List.length_range'] at hle
  exact hle

section Room

variable (hc : Canonical rules c) (ha : Augmented rules accept start base terminalCount)
  (hsymbols : base + c.states.size * (base - terminalCount) ≤ min limits.symbols indexSpace)

include hc ha hsymbols

/-- There is a number for a label, whether it has one or not. -/
theorem Grounded.exists_number (hg : Grounded c terminalCount labels) (label : Label)
    (hle : terminalCount ≤ label.symbol) (he : c.Edge label.source label.symbol label.target) :
    ∃ y labels', number base limits label labels = .ok (y, labels') ∧
      Grounded c terminalCount labels' := by
  unfold number
  split
  · exact ⟨_, _, rfl, hg⟩
  · next hfresh =>
    have hpush := hg.push hle he hfresh
    have hsize := hpush.size_le hc ha
    rw [Numbering.size_push] at hsize
    obtain ⟨hlimit, hspace⟩ := Nat.le_min.1 hsymbols
    dsimp only
    rw [if_neg (by omega), if_neg (by omega)]
    exact ⟨_, _, rfl, hpush⟩

variable (hcount : ∀ {q x q'}, c.Edge q x q' → x < a.symbolCount)

include hcount

/-- What can be walked can be labelled on the way. -/
theorem Grounded.exists_walk (hg : Grounded c terminalCount labels) {q q' : StateId}
    {xs : List SymbolId} (hw : c.Walk q xs q') :
    ∃ ys labels', walk (c.table a) terminalCount base limits q xs labels = .ok (ys, q', labels') ∧
      Grounded c terminalCount labels' := by
  induction hw generalizing labels with
  | nil q => exact ⟨[], labels, rfl, hg⟩
  | @cons q next q' x xs he _ ih =>
    have hstep := stepFrom_eq_ok hc hcount he
    by_cases hx : x < terminalCount
    · obtain ⟨ys, labels', h, hg'⟩ := ih hg
      refine ⟨x :: ys, labels', ?_, hg'⟩
      simp only [walk, hstep, if_pos hx, h, bind, Except.bind]
    · obtain ⟨y, labels₁, hy, hg₁⟩ :=
        hg.exists_number hc ha hsymbols ⟨x, q, next⟩ (Nat.le_of_not_lt hx) he
      obtain ⟨ys, labels', h, hg'⟩ := ih hg₁
      refine ⟨y :: ys, labels', ?_, hg'⟩
      simp only [walk, hstep, if_neg hx, hy, h, bind, Except.bind]

/-- A rule that begins in a state can be labelled there. -/
theorem Grounded.exists_labelRule (hg : Grounded c terminalCount labels) {q : StateId} {r : RuleId}
    {rule : Rule} (hr : rules[r]? = some rule) (hq : c.Holds q ⟨r, 0⟩) :
    ∃ l labels', labelRule (c.table a) terminalCount base limits q r rule labels =
      .ok (l, labels') ∧ Grounded c terminalCount labels' := by
  have hrhs : rule.rhs = [] ++ (rule.rhs ++ []) := by simp
  obtain ⟨target, hw, -⟩ := hc.exists_walk hr [] hrhs hq
  obtain ⟨ys, labels₁, hys, hg₁⟩ := hg.exists_walk hc ha hsymbols hcount hw
  unfold labelRule
  by_cases h₀ : r = RuleId.start
  · refine ⟨⟨⟨rule.lhs, ys⟩, r, q, target⟩, labels₁, ?_, hg₁⟩
    simp only [hys, if_pos h₀, bind, Except.bind]
  · obtain ⟨next, he⟩ := hc.exists_edge_lhs hq hr h₀
    obtain ⟨y, labels₂, hy, hg₂⟩ :=
      hg₁.exists_number hc ha hsymbols ⟨rule.lhs, q, next⟩ (ha.le_lhs hr) he
    refine ⟨⟨⟨y, ys⟩, r, q, target⟩, labels₂, ?_, hg₂⟩
    simp only [hys, if_neg h₀, stepFrom_eq_ok hc hcount he, hy, bind, Except.bind]

/-- Rules are labelled one after the other, as long as there is room for them. -/
theorem Grounded.exists_labelAll (hg : Grounded c terminalCount labels)
    {bs : List (StateId × RuleId × Rule)}
    (hbs : ∀ q r rule, (q, r, rule) ∈ bs → c.Holds q ⟨r, 0⟩ ∧ rules[r]? = some rule)
    (done : List LabelledRule) {count : Nat} (hroom : count + bs.length ≤ limits.labelledRules) :
    ∃ result, bs.foldlM (labelNext (c.table a) terminalCount base limits) (done, count, labels) =
      .ok result := by
  induction bs generalizing done count labels with
  | nil => exact ⟨_, rfl⟩
  | cons b bs ih =>
    obtain ⟨q, r, rule⟩ := b
    obtain ⟨hq, hr⟩ := hbs q r rule List.mem_cons_self
    obtain ⟨l, labels₁, hl, hg₁⟩ := hg.exists_labelRule hc ha hsymbols hcount hr hq
    rw [List.length_cons] at hroom
    have hrest : count + 1 + bs.length ≤ limits.labelledRules := by omega
    obtain ⟨result, h⟩ := ih hg₁ (fun q r rule hb => hbs q r rule (List.mem_cons_of_mem _ hb))
      (l :: done) hrest
    refine ⟨result, ?_⟩
    have hnext : labelNext (c.table a) terminalCount base limits (done, count, labels)
        (q, r, rule) = .ok (l :: done, count + 1, labels₁) := by
      have hlt : ¬ limits.labelledRules ≤ count := by omega
      simp only [labelNext, hl, if_neg hlt, bind, Except.bind, pure, Except.pure]
    rw [List.foldlM_cons, hnext]
    exact h

end Room

/-- A state has one labelled rule for a rule at most. -/
theorem length_begun_le
    (hitems : ∀ {q : StateId} {s : State}, c.states[q]? = some s → s.items.Nodup) :
    (begun rules c).length ≤ c.states.size * rules.size := by
  have hsubset : (begun rules c).map (fun b => (b.1, b.2.1)) ⊆
      List.range c.states.size ×ˢ List.range rules.size := by
    intro p hp
    obtain ⟨⟨q, r, rule⟩, hb, rfl⟩ := List.mem_map.1 hp
    obtain ⟨hq, hr⟩ := mem_begun.1 hb
    exact List.mem_product.2 ⟨List.mem_range.2 (Canonical.lt_of_holds hq),
      List.mem_range.2 (Array.getElem?_eq_some_iff.1 hr).1⟩
  have hle := (nodup_begun hitems).length_le_of_subset hsubset
  rwa [List.length_map, List.length_product, List.length_range, List.length_range] at hle

/-- **A grammar is labelled if the limits leave room for all labels and labelled rules.** -/
theorem exists_build (hc : Canonical rules c) {symbols : Registry}
    (ha : Augmented rules accept start symbols.size symbols.terminalCount)
    (hcount : ∀ {q x q'}, c.Edge q x q' → x < a.symbolCount)
    (hitems : ∀ {q : StateId} {s : State}, c.states[q]? = some s → s.items.Nodup)
    (hsymbols : symbols.size + c.states.size * (symbols.size - symbols.terminalCount) ≤
      min limits.symbols indexSpace)
    (hrules : c.states.size * rules.size ≤ limits.labelledRules) :
    ∃ g, build rules c a symbols limits = .ok g := by
  have hempty : Grounded c symbols.terminalCount Numbering.empty :=
    fun n label hn => by simp [Numbering.value?, Numbering.empty] at hn
  have hroom : 0 + (begun rules c).length ≤ limits.labelledRules := by
    rw [Nat.zero_add]
    exact (length_begun_le hitems).trans hrules
  obtain ⟨⟨done, count, labels⟩, hall⟩ :=
    hempty.exists_labelAll hc ha hsymbols hcount (fun q r rule => mem_begun.1) [] hroom
  unfold build labelAll
  rw [hall]
  exact ⟨_, rfl⟩

end LabelledGrammar

/-! ## Polish notation -/

namespace Polish

open Collection

variable {n k : Nat}

/-- An operator before `k` operands. -/
def operation (n k i : Nat) : Rule := ⟨⟨n + 2, (i + 2) :: List.replicate k (n + 2)⟩, .forward⟩

/-- The augmented rules of a notation with `n` operators before `k` operands each.  The operators
are the terminals behind the reserved ones, and the two nonterminals are the expression and `S'`. -/
def rules (n k : Nat) : Array Rule :=
  (⟨⟨n + 3, [n + 2]⟩, .forward⟩ :: (List.range n).map (operation n k)).toArray

theorem getElem?_rules_start : (rules n k)[RuleId.start]? = some ⟨⟨n + 3, [n + 2]⟩, .forward⟩ := rfl

theorem getElem?_rules_succ {i : Nat} (hi : i < n) :
    (rules n k)[i + 1]? = some (operation n k i) := by
  simp [rules, hi]

theorem size_rules : (rules n k).size = n + 1 := by simp [rules]

/-- A rule is the one that begins with `S'` or an operation. -/
theorem rules_cases {r : RuleId} {rule : Rule} (h : (rules n k)[r]? = some rule) :
    r = RuleId.start ∧ rule = ⟨⟨n + 3, [n + 2]⟩, .forward⟩ ∨
      ∃ i < n, r = i + 1 ∧ rule = operation n k i := by
  cases r with
  | zero => exact .inl ⟨rfl, (Option.some.inj (getElem?_rules_start.symm.trans h)).symm⟩
  | succ i =>
    have hi : i < n := by
      have hlt := (Array.getElem?_eq_some_iff.1 h).1
      rw [size_rules] at hlt
      exact Nat.lt_of_succ_lt_succ hlt
    exact .inr ⟨i, hi, rfl, (Option.some.inj ((getElem?_rules_succ hi).symm.trans h)).symm⟩

/-- `S'` is on no right-hand side. -/
theorem le_of_mem_rhs {r : RuleId} {rule : Rule} (h : (rules n k)[r]? = some rule) {x : Nat}
    (hx : x ∈ rule.rhs) : x ≤ n + 2 := by
  rcases rules_cases h with ⟨-, rfl⟩ | ⟨i, hi, -, rfl⟩
  · exact (List.mem_singleton.1 hx).le
  · rcases List.mem_cons.1 hx with rfl | hx
    · exact Nat.add_le_add_right hi.le 2
    · exact (List.eq_of_mem_replicate hx).le

/-- As rules they are well-formed: operators are terminals, and the start rule is the first. -/
theorem augmented (hn : n < indexSpace) :
    Augmented (rules n k) (n + 3) (n + 2) (n + 4) (n + 2) := by
  refine ⟨size_rules.trans_le hn, rfl, Nat.le_refl _, fun {r rule} h => ?_, fun {r rule} h => ?_,
    fun {r rule} h x hx => Nat.lt_succ_of_le (Nat.le_succ_of_le (le_of_mem_rhs h hx)),
    fun {r rule} h x hx => Nat.ne_of_lt (Nat.lt_succ_of_le (le_of_mem_rhs h hx)),
    fun {r rule} h ha => ?_⟩
  · rcases rules_cases h with ⟨-, rfl⟩ | ⟨i, -, -, rfl⟩
    · exact Nat.le_succ _
    · exact Nat.le_refl _
  · rcases rules_cases h with ⟨-, rfl⟩ | ⟨i, -, -, rfl⟩
    · exact Nat.lt_succ_self _
    · exact Nat.lt_succ_of_lt (Nat.lt_succ_self _)
  · rcases rules_cases h with ⟨rfl, -⟩ | ⟨i, -, -, rfl⟩
    · rfl
    · exact absurd ha (Nat.ne_of_lt (Nat.lt_succ_self _))

/-! ### States -/

theorem next?_start : Item.next? (rules n k) ⟨RuleId.start, 0⟩ = some (n + 2) := rfl

theorem next?_operator {i : Nat} (hi : i < n) :
    Item.next? (rules n k) ⟨i + 1, 0⟩ = some (i + 2) := by
  rw [Item.next?, getElem?_rules_succ hi]
  rfl

theorem next?_operand {i d : Nat} (hi : i < n) (hd : d < k) :
    Item.next? (rules n k) ⟨i + 1, d + 1⟩ = some (n + 2) := by
  rw [Item.next?, getElem?_rules_succ hi]
  simp [operation, hd]

/-- Where a dot is in front of a symbol. -/
theorem next?_cases {j : Item} {x : SymbolId} (h : j.next? (rules n k) = some x) :
    j = ⟨RuleId.start, 0⟩ ∧ x = n + 2 ∨ (∃ i < n, j = ⟨i + 1, 0⟩ ∧ x = i + 2) ∨
      ∃ i < n, ∃ d < k, j = ⟨i + 1, d + 1⟩ ∧ x = n + 2 := by
  obtain ⟨r, dot⟩ := j
  obtain ⟨rule, hr, hx⟩ := Item.next?_eq_some_iff.1 h
  rcases rules_cases hr with ⟨hstart, rfl⟩ | ⟨i, hi, hsucc, rfl⟩
  · obtain rfl : r = RuleId.start := hstart
    cases dot with
    | zero => exact .inl ⟨rfl, (Option.some.inj hx).symm⟩
    | succ dot => exact nomatch hx
  · obtain rfl : r = i + 1 := hsucc
    cases dot with
    | zero => exact .inr (.inl ⟨i, hi, rfl, (Option.some.inj hx).symm⟩)
    | succ dot =>
      have hx : (List.replicate k (n + 2))[dot]? = some x := hx
      rw [List.getElem?_replicate] at hx
      obtain ⟨hd, hx⟩ := Option.ite_none_right_eq_some.1 hx
      exact .inr (.inr ⟨i, hi, dot, hd, rfl, (Option.some.inj hx).symm⟩)

/-- An item calls for all operations if it expects an operand, and else for nothing. -/
theorem called_cases {i j : Item} (h : Item.Called (rules n k) (· ∈ [j]) i) :
    i = j ∨ j.next? (rules n k) = some (n + 2) ∧ ∃ m < n, i = ⟨m + 1, 0⟩ := by
  induction h with
  | kernel h => exact .inl (List.mem_singleton.1 h)
  | @predicted i r rule _ hr hx ih =>
    rcases rules_cases hr with ⟨-, rfl⟩ | ⟨m, hm, rfl, rfl⟩
    · -- no dot is in front of `S'`
      obtain ⟨rule, hr, hx⟩ := Item.next?_eq_some_iff.1 hx
      exact absurd (le_of_mem_rhs hr (List.mem_of_getElem? hx)) (Nat.not_succ_le_self _)
    · rcases ih with rfl | ⟨hj, -⟩
      · exact .inr ⟨hx, m, hm, rfl⟩
      · exact .inr ⟨hj, m, hm, rfl⟩

/-- No two items of a state have the same symbol behind their dots. -/
theorem eq_of_called {i i' j : Item} {x : SymbolId} (h : Item.Called (rules n k) (· ∈ [j]) i)
    (h' : Item.Called (rules n k) (· ∈ [j]) i') (hx : i.next? (rules n k) = some x)
    (hx' : i'.next? (rules n k) = some x) : i = i' := by
  rcases called_cases h with rfl | ⟨hj, m, hm, rfl⟩
  · rcases called_cases h' with rfl | ⟨hj, m, hm, rfl⟩
    · rfl
    · have hsame : n + 2 = m + 2 :=
        Option.some.inj ((hj.symm.trans hx).trans (hx'.symm.trans (next?_operator hm)))
      omega
  · rcases called_cases h' with rfl | ⟨-, m', hm', rfl⟩
    · have hsame : n + 2 = m + 2 :=
        Option.some.inj ((hj.symm.trans hx').trans (hx.symm.trans (next?_operator hm)))
      omega
    · have hsame : m + 2 = m' + 2 := Option.some.inj
        (((next?_operator hm).symm.trans hx).trans (hx'.symm.trans (next?_operator hm')))
      obtain rfl : m = m' := by omega
      rfl

/-- The kernels: one for each place behind a symbol. -/
def kernels (n k : Nat) : List (List Item) :=
  [⟨RuleId.start, 0⟩] :: [⟨RuleId.start, 1⟩] ::
    (List.range n ×ˢ List.range (k + 1)).map fun (i, d) => [⟨i + 1, d + 1⟩]

theorem length_kernels : (kernels n k).length = n * (k + 1) + 2 := by
  simp [kernels, List.length_product]

theorem mem_kernels_operation {i d : Nat} (hi : i < n) (hd : d ≤ k) :
    [⟨i + 1, d + 1⟩] ∈ kernels n k := by
  refine List.mem_cons_of_mem _ (List.mem_cons_of_mem _ (List.mem_map.2 ⟨(i, d), ?_, rfl⟩))
  exact List.mem_product.2 ⟨List.mem_range.2 hi, List.mem_range.2 (Nat.lt_succ_of_le hd)⟩

/-- The dot is behind one symbol, so there is one item in each kernel. -/
theorem exists_of_mem_kernels {K : List Item} (h : K ∈ kernels n k) : ∃ j, K = [j] := by
  simp only [kernels, List.mem_cons, List.mem_map] at h
  rcases h with rfl | rfl | ⟨p, -, rfl⟩ <;> exact ⟨_, rfl⟩

/-- What follows a place is the place behind the next symbol. -/
theorem suffice : Suffice (rules n k) (kernels n k) where
  start := ⟨_, List.mem_cons_self, fun _ => Iff.rfl⟩
  next {K} hK {i} hi {x} hx := by
    obtain ⟨j, rfl⟩ := exists_of_mem_kernels hK
    refine ⟨[i.advance], ?_, fun j' => ?_⟩
    · rcases next?_cases hx with ⟨rfl, -⟩ | ⟨m, hm, rfl, -⟩ | ⟨m, hm, d, hd, rfl, -⟩
      · exact List.mem_cons_of_mem _ List.mem_cons_self
      · exact mem_kernels_operation hm (Nat.zero_le k)
      · exact mem_kernels_operation hm hd
    · rw [List.mem_singleton]
      refine ⟨fun h => ⟨i, hi, hx, h⟩, fun ⟨i', hi', hx', h⟩ => ?_⟩
      rw [h, eq_of_called hi' hi hx' hx]

/-! ### Labelled rules -/

/-- The operands, by operation and place, each with an operation that it may begin with. -/
def beginnings (n k : Nat) : List ((Nat × Nat) × Nat) :=
  (List.range n ×ˢ List.range k) ×ˢ List.range n

theorem mem_beginnings {i d m : Nat} : ((i, d), m) ∈ beginnings n k ↔ i < n ∧ d < k ∧ m < n := by
  simp [beginnings, List.mem_product, and_assoc]

theorem nodup_beginnings : (beginnings n k).Nodup :=
  (List.nodup_range.product List.nodup_range).product List.nodup_range

theorem length_beginnings : (beginnings n k).length = n * k * n := by
  simp [beginnings, List.length_product]

section Labels

variable {c : Collection} (hc : Canonical (rules n k) c)

include hc

/-- In front of every operand there is a state. -/
theorem exists_state {i d : Nat} (hi : i < n) (hd : d < k) : ∃ q, c.Holds q ⟨i + 1, d + 1⟩ := by
  have hr := getElem?_rules_succ (k := k) hi
  have hbegin : c.Holds StateId.initial ⟨i + 1, 0⟩ :=
    hc.holds_predicted hc.holds_initial hr next?_start
  have hrhs : (operation n k i).rhs = [] ++
      ((operation n k i).rhs.take (d + 1) ++ (operation n k i).rhs.drop (d + 1)) := by simp
  obtain ⟨q, -, hq⟩ := hc.exists_walk hr [] hrhs hbegin
  refine ⟨q, ?_⟩
  simpa [operation, Nat.min_eq_left hd.le] using hq

/-- A state for every operand that it is in front of. -/
theorem exists_states : ∃ q : Nat → Nat → StateId,
    ∀ i d, i < n → d < k → c.Holds (q i d) ⟨i + 1, d + 1⟩ := by
  have hstate (i d : Nat) : ∃ q, i < n → d < k → c.Holds q ⟨i + 1, d + 1⟩ := by
    by_cases h : i < n ∧ d < k
    · obtain ⟨q, hq⟩ := exists_state hc h.1 h.2
      exact ⟨q, fun _ _ => hq⟩
    · exact ⟨StateId.initial, fun hi hd => absurd ⟨hi, hd⟩ h⟩
  choose q hq using hstate
  exact ⟨q, hq⟩

/-- A state is in front of one operand only. -/
theorem eq_of_holds (hdrawn : Drawn (kernels n k) c.states) {q : StateId} {i j : Item}
    (hi : c.Holds q i) (hj : c.Holds q j) (hidot : i.dot ≠ 0) (hjdot : j.dot ≠ 0) : i = j := by
  have hkernel {i : Item} (h : c.Holds q i) (hdot : i.dot ≠ 0) : c.Kernel q i := by
    rcases hc.holds_iff.1 h with hk | _
    · exact hk
    · exact absurd rfl hdot
  obtain ⟨s, hs, hi⟩ := hkernel hi hidot
  obtain ⟨s', hs', hj⟩ := hkernel hj hjdot
  obtain rfl := Option.some.inj (hs.symm.trans hs')
  obtain ⟨K, hK, hmem⟩ := hdrawn.among hs
  obtain ⟨j₀, rfl⟩ := exists_of_mem_kernels hK
  rw [List.mem_singleton.1 ((hmem i).1 hi), List.mem_singleton.1 ((hmem j).1 hj)]

/-- **All operations begin in front of every operand.** -/
theorem le_length_labelled (hdrawn : Drawn (kernels n k) c.states)
    {accept terminalCount base : Nat} {labels : Numbering Label} {labelled : List LabelledRule}
    (hlabels : LabelledGrammar.Labels (rules n k) c accept terminalCount base labels labelled) :
    n * k * n ≤ labelled.length := by
  obtain ⟨q, hq⟩ := exists_states hc
  have hnodup : ((beginnings n k).map fun ((i, d), m) => (q i d, m + 1)).Nodup := by
    refine nodup_beginnings.map_on ?_
    rintro ⟨⟨i, d⟩, m⟩ h ⟨⟨i', d'⟩, m'⟩ h' heq
    obtain ⟨hi, hd, -⟩ := mem_beginnings.1 h
    obtain ⟨hi', hd', -⟩ := mem_beginnings.1 h'
    obtain ⟨hsame, hm⟩ := Prod.mk.inj heq
    have hitem := eq_of_holds hc hdrawn (hq i d hi hd) (hsame ▸ hq i' d' hi' hd')
      (Nat.succ_ne_zero d) (Nat.succ_ne_zero d')
    obtain ⟨hii, hdd⟩ := Item.mk.inj hitem
    rw [Nat.succ.inj hii, Nat.succ.inj hdd, Nat.succ.inj hm]
  have hsubset : ((beginnings n k).map fun ((i, d), m) => (q i d, m + 1)) ⊆
      labelled.map fun l => (l.source, l.origin) := by
    intro p hp
    obtain ⟨⟨⟨i, d⟩, m⟩, hmem, rfl⟩ := List.mem_map.1 hp
    obtain ⟨hi, hd, hm⟩ := mem_beginnings.1 hmem
    have hbegin := hc.holds_predicted (hq i d hi hd) (getElem?_rules_succ hm) (next?_operand hi hd)
    obtain ⟨l, hl, hsource, horigin⟩ := hlabels.complete hbegin
    exact List.mem_map.2 ⟨l, hl, Prod.ext hsource horigin⟩
  have hle := hnodup.length_le_of_subset hsubset
  rwa [List.length_map, length_beginnings, List.length_map] at hle

end Labels

/-- **A notation with many operators and operands has many labelled rules**, and limits within which
its states, labels and labelled rules have room. -/
theorem exists_build {symbols : Registry} (limits : Limits) (hsize : symbols.size = n + 4)
    (hterminals : symbols.terminalCount = n + 2)
    (hstates : n * (k + 1) + 2 ≤ maxStates limits)
    (hsymbols : n + 4 + (n * (k + 1) + 2) * 2 ≤ min limits.symbols indexSpace)
    (hrules : (n * (k + 1) + 2) * (n + 1) ≤ limits.labelledRules) :
    ∃ c g, canonical (rules n k) (Automaton.analyze symbols (rules n k)) limits = .ok c ∧
      LabelledGrammar.build (rules n k) c (Automaton.analyze symbols (rules n k)) symbols limits =
        .ok g ∧ n * k * n ≤ g.rules.length := by
  have hn : n < indexSpace := by
    have hle := hsymbols.trans (Nat.min_le_right ..)
    omega
  have ha : Augmented (rules n k) (n + 3) (n + 2) symbols.size symbols.terminalCount := by
    rw [hsize, hterminals]
    exact augmented hn
  obtain ⟨c, hcanonical, hdrawn⟩ := suffice.exists_canonical (length_kernels.trans_le hstates)
    (numbered_of_augmented ha)
  have hc := Automaton.canonical_of_augmented ha hcanonical
  have hcount {q q' : StateId} {x : SymbolId} (he : c.Edge q x q') :
      x < (Automaton.analyze symbols (rules n k)).symbolCount :=
    Automaton.symbolCount_analyze ▸ hc.lt_symbolCount_of_edge ha he
  have hle : c.states.size ≤ n * (k + 1) + 2 := hdrawn.size_le.trans_eq length_kernels
  have hnonterminals : symbols.size - symbols.terminalCount = 2 := by omega
  obtain ⟨g, hg⟩ := LabelledGrammar.exists_build hc ha hcount
    (nodup_items_of_canonical hcanonical)
    (by
      rw [hnonterminals, hsize]
      exact (Nat.add_le_add_left (Nat.mul_le_mul_right 2 hle) _).trans hsymbols)
    (by
      rw [size_rules]
      exact (Nat.mul_le_mul_right _ hle).trans hrules)
  obtain ⟨hlabels, -⟩ := LabelledGrammar.labels_of_build hc ha hcount rfl hg
  exact ⟨c, g, hcanonical, hg, le_length_labelled hc hdrawn hlabels⟩

end Polish
end ShiftReduce

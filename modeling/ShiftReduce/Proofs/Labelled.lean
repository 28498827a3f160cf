import ShiftReduce.Proofs.Walk
import ShiftReduce.Labelled

/-!
# Proofs/Labelled — the labelled grammar tells where a nonterminal stands

Every rule that begins in a state has one labelled rule, which spells its walk (`labels_of_build`).
A form and its labelled spelling vanish together and begin alike, because the walk of the form says
which rules begin on the way.  Hence the plain follow sets of the labelled grammar are the
terminals that follow a nonterminal in a state (`follows_iff_followsAt`).
-/

namespace ShiftReduce

/-- The second numbering has the values of the first, under the same numbers. -/
def Numbering.Extends {α : Type} [Ord α] (n n' : Numbering α) : Prop :=
  ∀ (i : Nat) (a : α), n.value? i = some a → n'.value? i = some a

theorem Numbering.Extends.trans {α : Type} [Ord α] {n n' n'' : Numbering α} (h : n.Extends n')
    (h' : n'.Extends n'') : n.Extends n'' := fun i a ha => h' i a (h i a ha)

namespace LabelledGrammar

open ShiftReduce.Derivation Collection

variable {rules : Array Rule} {c : Collection} {accept start symbolCount terminalCount : Nat}
  {limits : Limits} {base : Nat} {labels labels' : Numbering Label}

/-! ## Spelling -/

/-- `y` spells the symbol `x` between the states `q` and `q'`. -/
def Spells (terminalCount base : Nat) (labels : Numbering Label) (q : StateId) (x : SymbolId)
    (q' : StateId) (y : SymbolId) : Prop :=
  (x < terminalCount ∧ y = x) ∨
    (terminalCount ≤ x ∧ ∃ n, labels.value? n = some ⟨x, q, q'⟩ ∧ y = base + n)

/-- `ys` spells a walk over `xs`. -/
inductive SpellsWalk (c : Collection) (terminalCount base : Nat) (labels : Numbering Label) :
    StateId → List SymbolId → List SymbolId → StateId → Prop
  | nil (q : StateId) : SpellsWalk c terminalCount base labels q [] [] q
  | cons {q q' q'' : StateId} {x y : SymbolId} {xs ys : List SymbolId} (he : c.Edge q x q')
    (hy : Spells terminalCount base labels q x q' y)
    (h : SpellsWalk c terminalCount base labels q' xs ys q'') :
    SpellsWalk c terminalCount base labels q (x :: xs) (y :: ys) q''

/-- `y` spells the nonterminal `x` in front of which `q` stands.  The left-hand side of the start
rule spells itself. -/
def SpellsLhs (c : Collection) (accept terminalCount base : Nat) (labels : Numbering Label)
    (q : StateId) (x y : SymbolId) : Prop :=
  (x = accept ∧ q = StateId.initial ∧ y = accept) ∨
    (x ≠ accept ∧ ∃ q', c.Edge q x q' ∧ Spells terminalCount base labels q x q' y)

/-- A labelled rule spells the rule that it comes from. -/
structure SpellsRule (rules : Array Rule) (c : Collection) (accept terminalCount base : Nat)
    (labels : Numbering Label) (l : LabelledRule) (rule : Rule) : Prop where
  origin : rules[l.origin]? = some rule
  holds : c.Holds l.source ⟨l.origin, 0⟩
  lhs : SpellsLhs c accept terminalCount base labels l.source rule.lhs l.lhs
  rhs : SpellsWalk c terminalCount base labels l.source rule.rhs l.rhs l.target

theorem Spells.of_extends {q q' : StateId} {x y : SymbolId} (he : labels.Extends labels')
    (h : Spells terminalCount base labels q x q' y) :
    Spells terminalCount base labels' q x q' y := by
  rcases h with h | ⟨hx, n, hn, hy⟩
  · exact .inl h
  · exact .inr ⟨hx, n, he n _ hn, hy⟩

theorem SpellsWalk.of_extends {q q' : StateId} {xs ys : List SymbolId} (he : labels.Extends labels')
    (h : SpellsWalk c terminalCount base labels q xs ys q') :
    SpellsWalk c terminalCount base labels' q xs ys q' := by
  induction h with
  | nil q => exact .nil q
  | cons hx hy _ ih => exact .cons hx (hy.of_extends he) ih

theorem SpellsLhs.of_extends {q : StateId} {x y : SymbolId} (he : labels.Extends labels')
    (h : SpellsLhs c accept terminalCount base labels q x y) :
    SpellsLhs c accept terminalCount base labels' q x y := by
  rcases h with h | ⟨hx, q', hq, hy⟩
  · exact .inl h
  · exact .inr ⟨hx, q', hq, hy.of_extends he⟩

theorem SpellsRule.of_extends {l : LabelledRule} {rule : Rule} (he : labels.Extends labels')
    (h : SpellsRule rules c accept terminalCount base labels l rule) :
    SpellsRule rules c accept terminalCount base labels' l rule :=
  ⟨h.origin, h.holds, h.lhs.of_extends he, h.rhs.of_extends he⟩

theorem SpellsWalk.walk {q q' : StateId} {xs ys : List SymbolId}
    (h : SpellsWalk c terminalCount base labels q xs ys q') : c.Walk q xs q' := by
  induction h with
  | nil q => exact .nil q
  | cons he _ _ ih => exact .cons he ih

/-- Where a form is split, its spelling is. -/
theorem SpellsWalk.exists_of_append {q q'' : StateId} {before behind ys : List SymbolId}
    (h : SpellsWalk c terminalCount base labels q (before ++ behind) ys q'') :
    ∃ before' behind' q', ys = before' ++ behind' ∧
      SpellsWalk c terminalCount base labels q before before' q' ∧
      SpellsWalk c terminalCount base labels q' behind behind' q'' := by
  induction before generalizing q ys with
  | nil => exact ⟨[], ys, q, rfl, .nil q, h⟩
  | cons x before ih =>
    rcases h with _ | ⟨he, hy, h⟩
    obtain ⟨before', behind', q', rfl, h₁, h₂⟩ := ih h
    exact ⟨_ :: before', behind', q', rfl, .cons he hy h₁, h₂⟩

/-- Where a spelling is split, the form is. -/
theorem SpellsWalk.exists_of_append_right {q q'' : StateId} {xs before' behind' : List SymbolId}
    (h : SpellsWalk c terminalCount base labels q xs (before' ++ behind') q'') :
    ∃ before behind q', xs = before ++ behind ∧
      SpellsWalk c terminalCount base labels q before before' q' ∧
      SpellsWalk c terminalCount base labels q' behind behind' q'' := by
  induction before' generalizing q xs with
  | nil => exact ⟨[], xs, q, rfl, .nil q, h⟩
  | cons y before' ih =>
    rcases h with _ | ⟨he, hy, h⟩
    obtain ⟨before, behind, q', rfl, h₁, h₂⟩ := ih h
    exact ⟨_ :: before, behind, q', rfl, .cons he hy h₁, h₂⟩

/-! ## The construction -/

/-- The second numbering has the labels of the first, and no more than there are numbers for. -/
structure Adds (base : Nat) (labels labels' : Numbering Label) : Prop where
  keeps : labels.Extends labels'
  fits (h : base + labels.size ≤ indexSpace + 1) : base + labels'.size ≤ indexSpace + 1

theorem Adds.refl (base : Nat) (labels : Numbering Label) : Adds base labels labels :=
  ⟨fun _ _ h => h, id⟩

theorem Adds.trans {labels'' : Numbering Label} (h : Adds base labels labels')
    (h' : Adds base labels' labels'') : Adds base labels labels'' :=
  ⟨h.keeps.trans h'.keeps, fun hfits => h'.fits (h.fits hfits)⟩

theorem of_number {label : Label} {y : SymbolId}
    (h : number base limits label labels = .ok (y, labels')) :
    Adds base labels labels' ∧ ∃ n, labels'.value? n = some label ∧ y = base + n := by
  unfold number at h
  split at h
  · next n hn =>
    obtain ⟨rfl, rfl⟩ := Prod.mk.inj (Except.ok.inj h)
    exact ⟨.refl base labels, n, labels.value?_number? hn, rfl⟩
  · next hfresh =>
    dsimp only at h
    split at h
    · exact nomatch h
    · split at h
      · exact nomatch h
      · next hspace =>
        obtain ⟨rfl, rfl⟩ := Prod.mk.inj (Except.ok.inj h)
        refine ⟨⟨fun _ _ h => Numbering.value?_push_of_some hfresh h, fun _ => ?_⟩, labels.size,
          Numbering.value?_push_size hfresh, rfl⟩
        rw [Numbering.size_push, ← Nat.add_assoc]
        exact Nat.succ_le_succ (Nat.le_of_not_lt hspace)

variable {a : Analysis}

/-- There is a step over every edge. -/
theorem stepFrom_eq_ok (hc : Canonical rules c)
    (hcount : ∀ {q x q'}, c.Edge q x q' → x < a.symbolCount) {q q' : StateId} {x : SymbolId}
    (he : c.Edge q x q') : stepFrom (c.table a) q x = .ok q' := by
  have htarget : ((c.table a).cell q x).target? = some q' := by
    rw [cell_of_edge hc he (hcount he)]
    split <;> rfl
  unfold stepFrom
  rw [htarget]

theorem edge_of_stepFrom (hc : Canonical rules c)
    (hcount : ∀ {q x q'}, c.Edge q x q' → x < a.symbolCount) {q q' : StateId} {x : SymbolId}
    (h : stepFrom (c.table a) q x = .ok q') : c.Edge q x q' := by
  by_cases he : ∃ q'', c.Edge q x q''
  · obtain ⟨q'', he⟩ := he
    rw [stepFrom_eq_ok hc hcount he] at h
    obtain rfl := Except.ok.inj h
    exact he
  · unfold stepFrom at h
    rw [cell_of_not_edge (not_exists.1 he)] at h
    exact nomatch h

/-- A walk steps over its first symbol, which keeps its name if it is a terminal. -/
theorem exists_of_walk_cons {table : CellTable} {q target : StateId} {x : SymbolId}
    {xs ys : List SymbolId}
    (h : walk table terminalCount base limits q (x :: xs) labels = .ok (ys, target, labels')) :
    ∃ next y labels₁ rest, stepFrom table q x = .ok next ∧
      (x < terminalCount ∧ y = x ∧ labels₁ = labels ∨
        terminalCount ≤ x ∧ number base limits ⟨x, q, next⟩ labels = .ok (y, labels₁)) ∧
      walk table terminalCount base limits next xs labels₁ = .ok (rest, target, labels') ∧
      ys = y :: rest := by
  obtain ⟨next, hnext, h⟩ := Except.bind_eq_ok h
  dsimp only at h
  split at h
  · next hx =>
    obtain ⟨⟨y, labels₁⟩, hy, h⟩ := Except.bind_eq_ok h
    obtain ⟨rfl, rfl⟩ := Prod.mk.inj (Except.ok.inj hy)
    obtain ⟨⟨rest, target', labels₂⟩, hw, h⟩ := Except.bind_eq_ok h
    simp only [Except.ok.injEq, Prod.mk.injEq] at h
    obtain ⟨rfl, rfl, rfl⟩ := h
    exact ⟨next, x, labels, rest, hnext, .inl ⟨hx, rfl, rfl⟩, hw, rfl⟩
  · next hx =>
    obtain ⟨⟨y, labels₁⟩, hy, h⟩ := Except.bind_eq_ok h
    obtain ⟨⟨rest, target', labels₂⟩, hw, h⟩ := Except.bind_eq_ok h
    simp only [Except.ok.injEq, Prod.mk.injEq] at h
    obtain ⟨rfl, rfl, rfl⟩ := h
    exact ⟨next, y, labels₁, rest, hnext, .inr ⟨Nat.le_of_not_lt hx, hy⟩, hw, rfl⟩

/-- A rule is walked, and its left-hand side is labelled unless it is the start rule. -/
theorem exists_of_labelRule {table : CellTable} {q : StateId} {r : RuleId} {rule : Rule}
    {l : LabelledRule}
    (h : labelRule table terminalCount base limits q r rule labels = .ok (l, labels')) :
    ∃ lhs rhs target labels₁,
      walk table terminalCount base limits q rule.rhs labels = .ok (rhs, target, labels₁) ∧
      (r = RuleId.start ∧ lhs = rule.lhs ∧ labels' = labels₁ ∨
        r ≠ RuleId.start ∧ ∃ next, stepFrom table q rule.lhs = .ok next ∧
          number base limits ⟨rule.lhs, q, next⟩ labels₁ = .ok (lhs, labels')) ∧
      l = ⟨⟨lhs, rhs⟩, r, q, target⟩ := by
  obtain ⟨⟨rhs, target, labels₁⟩, hw, h⟩ := Except.bind_eq_ok h
  dsimp only at h
  split at h
  · next h₀ =>
    obtain ⟨rfl, rfl⟩ := Prod.mk.inj (Except.ok.inj h)
    exact ⟨rule.lhs, rhs, target, labels₁, hw, .inl ⟨h₀, rfl, rfl⟩, rfl⟩
  · next h₀ =>
    obtain ⟨next, hnext, h⟩ := Except.bind_eq_ok h
    obtain ⟨⟨lhs, labels₂⟩, hl, h⟩ := Except.bind_eq_ok h
    obtain ⟨rfl, rfl⟩ := Prod.mk.inj (Except.ok.inj h)
    exact ⟨lhs, rhs, target, labels₁, hw, .inr ⟨h₀, next, hnext, hl⟩, rfl⟩

theorem exists_of_labelNext {table : CellTable} {q : StateId} {r : RuleId} {rule : Rule}
    {done : List LabelledRule} {count : Nat} {result : List LabelledRule × Nat × Numbering Label}
    (h : labelNext table terminalCount base limits (done, count, labels) (q, r, rule) =
      .ok result) :
    ∃ l labels', labelRule table terminalCount base limits q r rule labels = .ok (l, labels') ∧
      result = (l :: done, count + 1, labels') := by
  obtain ⟨⟨l, labels'⟩, hl, h⟩ := Except.bind_eq_ok h
  dsimp only at h
  split at h
  · exact nomatch h
  · exact ⟨l, labels', hl, (Except.ok.inj h).symm⟩

theorem of_walk (hc : Canonical rules c) (hcount : ∀ {q x q'}, c.Edge q x q' → x < a.symbolCount)
    {q target : StateId} {xs ys : List SymbolId}
    (h : walk (c.table a) terminalCount base limits q xs labels = .ok (ys, target, labels')) :
    Adds base labels labels' ∧ SpellsWalk c terminalCount base labels' q xs ys target := by
  induction xs generalizing q ys labels with
  | nil =>
    simp only [walk, Except.ok.injEq, Prod.mk.injEq] at h
    obtain ⟨rfl, rfl, rfl⟩ := h
    exact ⟨.refl base labels, .nil q⟩
  | cons x xs ih =>
    obtain ⟨next, y, labels₁, rest, hnext, hy, hw, rfl⟩ := exists_of_walk_cons h
    obtain ⟨he₁, hy⟩ : Adds base labels labels₁ ∧ Spells terminalCount base labels₁ q x next y := by
      rcases hy with ⟨hx, rfl, rfl⟩ | ⟨hx, hy⟩
      · exact ⟨.refl base labels₁, .inl ⟨hx, rfl⟩⟩
      · obtain ⟨he, hn⟩ := of_number hy
        exact ⟨he, .inr ⟨hx, hn⟩⟩
    obtain ⟨he, hw⟩ := ih hw
    exact ⟨he₁.trans he, .cons (edge_of_stepFrom hc hcount hnext) (hy.of_extends he.keeps) hw⟩

theorem of_labelRule (hc : Canonical rules c)
    (ha : Augmented rules accept start symbolCount terminalCount)
    (hcount : ∀ {q x q'}, c.Edge q x q' → x < a.symbolCount) {q : StateId} {r : RuleId}
    {rule : Rule} {l : LabelledRule} (hr : rules[r]? = some rule) (hq : c.Holds q ⟨r, 0⟩)
    (h : labelRule (c.table a) terminalCount base limits q r rule labels = .ok (l, labels')) :
    Adds base labels labels' ∧ l.source = q ∧ l.origin = r ∧
      SpellsRule rules c accept terminalCount base labels' l rule := by
  obtain ⟨lhs, rhs, target, labels₁, hw, hlhs, rfl⟩ := exists_of_labelRule h
  obtain ⟨he₁, hw⟩ := of_walk hc hcount hw
  rcases hlhs with ⟨rfl, rfl, rfl⟩ | ⟨h₀, next, hnext, hl⟩
  · obtain rfl := Option.some.inj (ha.start_rule.symm.trans hr)
    exact ⟨he₁, rfl, rfl, hr, hq, .inl ⟨rfl, hc.eq_initial_of_holds_start ha hq, rfl⟩, hw⟩
  · obtain ⟨he, hn⟩ := of_number hl
    have hlhs : SpellsLhs c accept terminalCount base labels' q rule.lhs lhs :=
      .inr ⟨fun h => h₀ (ha.eq_start hr h), next, edge_of_stepFrom hc hcount hnext,
        .inr ⟨ha.le_lhs hr, hn⟩⟩
    exact ⟨he₁.trans he, rfl, rfl, hr, hq, hlhs, hw.of_extends he.keeps⟩

/-- The rules that begin in the states. -/
theorem mem_begun {q : StateId} {r : RuleId} {rule : Rule} :
    (q, r, rule) ∈ begun rules c ↔ c.Holds q ⟨r, 0⟩ ∧ rules[r]? = some rule := by
  unfold begun
  simp only [List.mem_flatMap, List.mem_filterMap, Prod.exists]
  constructor
  · rintro ⟨s, q', hs, ⟨r', dot⟩, hi, h⟩
    rw [List.mem_zipIdx_iff_getElem?, Array.getElem?_toList] at hs
    split at h
    · next hdot =>
      obtain ⟨rule', hr, h⟩ := Option.map_eq_some_iff.1 h
      simp only [Prod.mk.injEq] at h
      obtain ⟨rfl, rfl, rfl⟩ := h
      obtain rfl : dot = 0 := hdot
      exact ⟨⟨s, hs, hi⟩, hr⟩
    · exact nomatch h
  · rintro ⟨⟨s, hs, hi⟩, hr⟩
    refine ⟨s, q, ?_, ⟨r, 0⟩, hi, by simp [hr]⟩
    rwa [List.mem_zipIdx_iff_getElem?, Array.getElem?_toList]

/-- The start rule in the initial state begins first. -/
theorem head?_begun (hc : Canonical rules c)
    (ha : Augmented rules accept start symbolCount terminalCount) :
    ∃ rule, (begun rules c).head? = some (StateId.initial, RuleId.start, rule) := by
  obtain ⟨s, hs, hi⟩ := hc.kernel_initial.2 rfl
  have hall : ∀ i ∈ s.kernel, i = ⟨RuleId.start, 0⟩ := fun i hi => hc.kernel_initial.1 ⟨s, hs, hi⟩
  have hstates : ∃ rest, c.states.toList = s :: rest := by
    rw [← Array.getElem?_toList] at hs
    cases hl : c.states.toList with
    | nil => rw [hl] at hs; exact nomatch hs
    | cons s' rest =>
      rw [hl] at hs
      obtain rfl : s' = s := Option.some.inj hs
      exact ⟨rest, rfl⟩
  have hkernel : ∃ rest, s.kernel = ⟨RuleId.start, 0⟩ :: rest := by
    cases hk : s.kernel with
    | nil => rw [hk] at hi; exact nomatch hi
    | cons i rest => exact ⟨rest, by rw [hall i (hk ▸ List.mem_cons_self)]⟩
  obtain ⟨rest, hstates⟩ := hstates
  obtain ⟨rest', hkernel⟩ := hkernel
  have hzip : c.states.toList.zipIdx = (s, 0) :: rest.zipIdx 1 := by rw [hstates, List.zipIdx_cons]
  refine ⟨⟨⟨accept, [start]⟩, .forward⟩, ?_⟩
  simp [begun, hzip, State.items, hkernel, ha.start_rule, StateId.initial]

/-- **What the labelled grammar is.** -/
structure Labels (rules : Array Rule) (c : Collection) (accept terminalCount base : Nat)
    (labels : Numbering Label) (labelled : List LabelledRule) : Prop where
  /-- Every labelled rule spells a rule that begins in its source. -/
  sound {l : LabelledRule} (h : l ∈ labelled) :
    ∃ rule, SpellsRule rules c accept terminalCount base labels l rule
  /-- Every rule that begins in a state has a labelled rule. -/
  complete {q : StateId} {r : RuleId} (h : c.Holds q ⟨r, 0⟩) :
    ∃ l ∈ labelled, l.source = q ∧ l.origin = r
  head : ∃ l, labelled.head? = some l ∧ l.origin = RuleId.start

/-- Labelling rules one by one. -/
theorem of_labelAll (hc : Canonical rules c)
    (ha : Augmented rules accept start symbolCount terminalCount)
    (hcount : ∀ {q x q'}, c.Edge q x q' → x < a.symbolCount) {bs : List (StateId × RuleId × Rule)}
    (hbs : ∀ q r rule, (q, r, rule) ∈ bs → c.Holds q ⟨r, 0⟩ ∧ rules[r]? = some rule)
    {done done' : List LabelledRule} {count count' : Nat}
    (h : bs.foldlM (labelNext (c.table a) terminalCount base limits) (done, count, labels)
      = .ok (done', count', labels')) :
    Adds base labels labels' ∧ ∃ new : List LabelledRule, done' = new.reverse ++ done ∧
      (∀ l ∈ new, ∃ rule, SpellsRule rules c accept terminalCount base labels' l rule) ∧
      new.map (fun l => (l.source, l.origin)) = bs.map fun (q, r, _) => (q, r) := by
  induction bs generalizing done count labels with
  | nil =>
    simp only [List.foldlM_nil, pure, Except.pure, Except.ok.injEq, Prod.mk.injEq] at h
    obtain ⟨rfl, -, rfl⟩ := h
    exact ⟨.refl base labels, [], rfl, by simp, rfl⟩
  | cons b bs ih =>
    obtain ⟨q, r, rule⟩ := b
    rw [List.foldlM_cons] at h
    obtain ⟨result, hb, h⟩ := Except.bind_eq_ok h
    obtain ⟨l, labels₁, hl, rfl⟩ := exists_of_labelNext hb
    obtain ⟨hq, hr⟩ := hbs q r rule List.mem_cons_self
    obtain ⟨he, hsource, horigin, hspells⟩ := of_labelRule hc ha hcount hr hq hl
    obtain ⟨he', new, rfl, hnew, hmap⟩ :=
      ih (fun q r rule h => hbs q r rule (List.mem_cons_of_mem _ h)) h
    refine ⟨he.trans he', l :: new, by simp, ?_, by simp [hmap, hsource, horigin]⟩
    exact List.forall_mem_cons.2 ⟨⟨rule, hspells.of_extends he'.keeps⟩, hnew⟩

/-- **The labelled grammar that is built is what it should be.** -/
theorem labels_of_build (hc : Canonical rules c)
    (ha : Augmented rules accept start symbolCount terminalCount)
    (hcount : ∀ {q x q'}, c.Edge q x q' → x < a.symbolCount) {symbols : Registry}
    (hterminals : symbols.terminalCount = terminalCount) {g : LabelledGrammar}
    (h : build rules c a symbols limits = .ok g) :
    Labels rules c accept terminalCount symbols.size g.labels g.rules ∧
      g.analysis = .compute (g.rules.map LabelledRule.toProduction) (symbols.size + g.labels.size)
        terminalCount := by
  obtain ⟨⟨done, count, labels⟩, hall, h⟩ := Except.bind_eq_ok h
  obtain rfl := Except.ok.inj h
  subst hterminals
  obtain ⟨-, new, rfl, hnew, hmap⟩ := of_labelAll hc ha hcount
    (fun q r rule hb => mem_begun.1 hb) hall
  refine ⟨⟨fun {l} hl => hnew l (by simpa using hl), fun {q r} hq => ?_, ?_⟩, rfl⟩
  · obtain ⟨rule, hr, -⟩ := hc.exists_rule ha hq
    have hb : (q, r) ∈ (begun rules c).map fun (q, r, _) => (q, r) :=
      List.mem_map.2 ⟨(q, r, rule), mem_begun.2 ⟨hq, hr⟩, rfl⟩
    rw [← hmap] at hb
    obtain ⟨l, hl, he⟩ := List.mem_map.1 hb
    obtain ⟨rfl, rfl⟩ := Prod.mk.inj he
    exact ⟨l, by simpa using hl, rfl, rfl⟩
  · obtain ⟨rule, hb⟩ := head?_begun hc ha
    have hhead : (new.map fun l => (l.source, l.origin)).head?
        = some (StateId.initial, RuleId.start) := by
      rw [hmap, List.head?_map, hb]
      rfl
    rw [List.head?_map, Option.map_eq_some_iff] at hhead
    obtain ⟨l, hl, he⟩ := hhead
    exact ⟨l, by simpa using hl, (Prod.mk.inj he).2⟩

/-! ## Reading a spelling -/

theorem Spells.le_iff (hbase : terminalCount ≤ base) {q q' : StateId} {x y : SymbolId}
    (h : Spells terminalCount base labels q x q' y) : terminalCount ≤ y ↔ terminalCount ≤ x := by
  rcases h with ⟨-, rfl⟩ | ⟨hx, n, -, rfl⟩
  · exact Iff.rfl
  · exact iff_of_true (Nat.le_trans hbase (Nat.le_add_right base n)) hx

theorem SpellsLhs.le (hbase : terminalCount ≤ base) (haccept : terminalCount ≤ accept)
    {q : StateId} {x y : SymbolId} (h : SpellsLhs c accept terminalCount base labels q x y)
    (hx : terminalCount ≤ x) : terminalCount ≤ y := by
  rcases h with ⟨-, -, rfl⟩ | ⟨-, q', -, hy⟩
  · exact haccept
  · exact (hy.le_iff hbase).2 hx

theorem Spells.lt (hbase : terminalCount ≤ base) {q q' : StateId} {x y : SymbolId}
    (h : Spells terminalCount base labels q x q' y) : y < base + labels.size := by
  rcases h with ⟨hlt, rfl⟩ | ⟨-, n, hn, rfl⟩
  · exact Nat.lt_of_lt_of_le hlt (Nat.le_trans hbase (Nat.le_add_right base _))
  · exact Nat.add_lt_add_left (Numbering.lt_size_of_value? hn) base

theorem SpellsWalk.lt (hbase : terminalCount ≤ base) {q q' : StateId} {xs ys : List SymbolId}
    (h : SpellsWalk c terminalCount base labels q xs ys q') :
    ∀ y ∈ ys, y < base + labels.size := by
  induction h with
  | nil => simp
  | cons _ hy _ ih => exact List.forall_mem_cons.2 ⟨hy.lt hbase, ih⟩

theorem SpellsLhs.lt (hbase : terminalCount ≤ base) (haccept : accept < base) {q : StateId}
    {x y : SymbolId} (h : SpellsLhs c accept terminalCount base labels q x y) :
    y < base + labels.size := by
  rcases h with ⟨-, -, rfl⟩ | ⟨-, q', -, hy⟩
  · exact Nat.lt_of_lt_of_le haccept (Nat.le_add_right base _)
  · exact hy.lt hbase

/-- A symbol spells one nonterminal in one state. -/
theorem SpellsLhs.inj (haccept : accept < base) {q q₁ : StateId} {x x₁ y : SymbolId}
    (h : SpellsLhs c accept terminalCount base labels q x y)
    (h₁ : SpellsLhs c accept terminalCount base labels q₁ x₁ y) (hx : terminalCount ≤ x)
    (hx₁ : terminalCount ≤ x₁) : q = q₁ ∧ x = x₁ := by
  have hlabel {q : StateId} {x : SymbolId} (hx : terminalCount ≤ x)
      (h : x ≠ accept ∧ ∃ q', c.Edge q x q' ∧ Spells terminalCount base labels q x q' y) :
      ∃ n q', labels.value? n = some ⟨x, q, q'⟩ ∧ y = base + n := by
    obtain ⟨-, q', -, ⟨hlt, -⟩ | ⟨-, n, hn, hy⟩⟩ := h
    · exact absurd hx (Nat.not_le_of_lt hlt)
    · exact ⟨n, q', hn, hy⟩
  have hne (n : Nat) : accept ≠ base + n := Nat.ne_of_lt (Nat.lt_of_lt_of_le haccept (by simp))
  rcases h with ⟨rfl, rfl, rfl⟩ | h <;> rcases h₁ with ⟨rfl, rfl, h₁⟩ | h₁
  · exact ⟨rfl, rfl⟩
  · obtain ⟨n, -, -, hy⟩ := hlabel hx₁ h₁
    exact absurd hy (hne n)
  · obtain ⟨n, -, -, hy⟩ := hlabel hx h
    exact absurd (h₁.symm.trans hy) (hne n)
  · obtain ⟨n, q', hn, hy⟩ := hlabel hx h
    obtain ⟨n₁, q₁', hn₁, hy₁⟩ := hlabel hx₁ h₁
    obtain rfl : n = n₁ := Nat.add_left_cancel (hy.symm.trans hy₁)
    have hl := Option.some.inj (hn.symm.trans hn₁)
    exact ⟨congrArg Label.source hl, congrArg Label.symbol hl⟩

/-- A nonterminal has one spelling in a state. -/
theorem SpellsLhs.unique (hc : Canonical rules c) {q : StateId} {x y y₁ : SymbolId}
    (h : SpellsLhs c accept terminalCount base labels q x y)
    (h₁ : SpellsLhs c accept terminalCount base labels q x y₁) : y = y₁ := by
  rcases h with ⟨hx, -, rfl⟩ | ⟨hx, q', he, hy⟩ <;>
    rcases h₁ with ⟨hx₁, -, rfl⟩ | ⟨hx₁, q₁, he₁, hy₁⟩
  · rfl
  · exact absurd hx hx₁
  · exact absurd hx₁ hx
  · obtain rfl := hc.edge_unique he he₁
    rcases hy with ⟨hlt, rfl⟩ | ⟨hle, n, hn, rfl⟩ <;>
      rcases hy₁ with ⟨hlt₁, rfl⟩ | ⟨hle₁, n₁, hn₁, rfl⟩
    · rfl
    · exact absurd hle₁ (Nat.not_le_of_lt hlt)
    · exact absurd hle (Nat.not_le_of_lt hlt₁)
    · rw [Numbering.eq_of_value?_eq hn hn₁]

section Labels

variable {labelled : List LabelledRule}

/-- The rule behind a labelled rule whose left-hand side spells a step of a walk. -/
theorem Labels.exists_rule_of_spells (hc : Canonical rules c)
    (ha : Augmented rules accept start base terminalCount)
    (hl : Labels rules c accept terminalCount base labels labelled) {l : LabelledRule}
    (hmem : l ∈ labelled) {q q' : StateId} {x : SymbolId} (he : c.Edge q x q')
    (hy : Spells terminalCount base labels q x q' l.lhs) :
    ∃ rule, SpellsRule rules c accept terminalCount base labels l rule ∧ rule.lhs = x ∧
      l.source = q := by
  obtain ⟨rule, hrule⟩ := hl.sound hmem
  have hx : terminalCount ≤ x :=
    (hy.le_iff ha.le_symbolCount).1
      (hrule.lhs.le ha.le_symbolCount ha.le_accept (ha.le_lhs hrule.origin))
  have hx' : SpellsLhs c accept terminalCount base labels q x l.lhs :=
    .inr ⟨hc.ne_accept_of_edge ha he, q', he, hy⟩
  obtain ⟨hq, hx⟩ := hrule.lhs.inj ha.accept_lt hx' (ha.le_lhs hrule.origin) hx
  exact ⟨rule, hrule, hx, hq⟩

/-- The labelled rule of a rule that begins in a state. -/
theorem Labels.exists_spellsRule (hl : Labels rules c accept terminalCount base labels labelled)
    {q : StateId} {r : RuleId} {rule : Rule} (hq : c.Holds q ⟨r, 0⟩) (hr : rules[r]? = some rule) :
    ∃ l ∈ labelled, SpellsRule rules c accept terminalCount base labels l rule ∧ l.source = q ∧
      l.origin = r := by
  obtain ⟨l, hmem, hsource, rfl⟩ := hl.complete hq
  obtain ⟨rule', hrule⟩ := hl.sound hmem
  obtain rfl := Option.some.inj (hr.symm.trans hrule.origin)
  exact ⟨l, hmem, hrule, hsource, rfl⟩

/-- The labelled rule of a rule that is taken at a step of a walk. -/
theorem Labels.exists_spellsRule_of_edge (hc : Canonical rules c)
    (ha : Augmented rules accept start base terminalCount)
    (hl : Labels rules c accept terminalCount base labels labelled) {q q' : StateId} {r : RuleId}
    {rule : Rule} {y : SymbolId} (hr : rules[r]? = some rule) (he : c.Edge q rule.lhs q')
    (hy : Spells terminalCount base labels q rule.lhs q' y) :
    ∃ l ∈ labelled, SpellsRule rules c accept terminalCount base labels l rule ∧ l.lhs = y := by
  obtain ⟨l, hmem, hrule, rfl, -⟩ := hl.exists_spellsRule (hc.holds_predicted_of_edge he hr) hr
  have hy' : SpellsLhs c accept terminalCount base labels l.source rule.lhs y :=
    .inr ⟨hc.ne_accept_of_edge ha he, q', he, hy⟩
  exact ⟨l, hmem, hrule, hrule.lhs.unique hc hy'⟩

/-! ## Vanishing and beginning -/

/-- A form and its spelling vanish together. -/
theorem Labels.vanishes_iff (hc : Canonical rules c)
    (ha : Augmented rules accept start base terminalCount)
    (hl : Labels rules c accept terminalCount base labels labelled) {q q' : StateId}
    {xs ys : List SymbolId} (h : SpellsWalk c terminalCount base labels q xs ys q') :
    Vanishes (labelled.map LabelledRule.toProduction) ys ↔ Vanishes (productions rules) xs := by
  constructor
  · intro hv
    induction hv generalizing q xs q' with
    | nil =>
      cases h
      exact .nil
    | cons hp _ _ ih ihs =>
      obtain ⟨l, hmem, rfl⟩ := List.mem_map.1 hp
      rcases h with _ | ⟨he, hy, h⟩
      obtain ⟨rule, hrule, rfl, -⟩ := hl.exists_rule_of_spells hc ha hmem he hy
      exact .cons (mem_productions_of_getElem? hrule.origin) (ih hrule.rhs) (ihs h)
  · intro hv
    induction hv generalizing q ys q' with
    | nil =>
      cases h
      exact .nil
    | cons hp _ _ ih ihs =>
      obtain ⟨r, rule, hr, rfl⟩ := mem_productions.1 hp
      rcases h with _ | ⟨he, hy, h⟩
      obtain ⟨l, hmem, hrule, rfl⟩ := hl.exists_spellsRule_of_edge hc ha hr he hy
      exact .cons (List.mem_map_of_mem hmem) (ih hrule.rhs) (ihs h)

theorem SpellsWalk.single {q q' : StateId} {x y : SymbolId} (he : c.Edge q x q')
    (hy : Spells terminalCount base labels q x q' y) :
    SpellsWalk c terminalCount base labels q [x] [y] q' := .cons he hy (.nil q')

/-- A form and its spelling begin alike. -/
theorem Labels.begins_iff (hc : Canonical rules c)
    (ha : Augmented rules accept start base terminalCount)
    (hl : Labels rules c accept terminalCount base labels labelled) {q q' : StateId}
    {xs ys : List SymbolId} {t : SymbolId}
    (h : SpellsWalk c terminalCount base labels q xs ys q') :
    Begins (labelled.map LabelledRule.toProduction) terminalCount t ys ↔
      Begins (productions rules) terminalCount t xs := by
  constructor
  · intro hb
    induction hb generalizing q xs q' with
    | terminal ht =>
      rcases h with _ | ⟨he, ⟨-, rfl⟩ | ⟨-, n, -, rfl⟩, h⟩
      · exact .terminal ht _
      · exact absurd (Nat.le_trans ha.le_symbolCount (Nat.le_add_right base n))
          (Nat.not_le_of_lt ht)
    | rule hp _ _ ih =>
      obtain ⟨l, hmem, rfl⟩ := List.mem_map.1 hp
      rcases h with _ | ⟨he, hy, h⟩
      obtain ⟨rule, hrule, rfl, -⟩ := hl.exists_rule_of_spells hc ha hmem he hy
      exact .rule (mem_productions_of_getElem? hrule.origin) (ih hrule.rhs) _
    | behind hx _ ih =>
      rcases h with _ | ⟨he, hy, h⟩
      exact .behind ((hl.vanishes_iff hc ha (.single he hy)).1 hx) (ih h)
  · intro hb
    induction hb generalizing q ys q' with
    | terminal ht =>
      rcases h with _ | ⟨he, ⟨-, rfl⟩ | ⟨hle, -⟩, h⟩
      · exact .terminal ht _
      · exact absurd hle (Nat.not_le_of_lt ht)
    | rule hp _ _ ih =>
      obtain ⟨r, rule, hr, rfl⟩ := mem_productions.1 hp
      rcases h with _ | ⟨he, hy, h⟩
      obtain ⟨l, hmem, hrule, rfl⟩ := hl.exists_spellsRule_of_edge hc ha hr he hy
      exact .rule (List.mem_map_of_mem hmem) (ih hrule.rhs) _
    | behind hx _ ih =>
      rcases h with _ | ⟨he, hy, h⟩
      exact .behind ((hl.vanishes_iff hc ha (.single he hy)).2 hx) (ih h)

/-! ## Following -/

/-- An occurrence in a labelled rule is one on the walk of its rule. -/
theorem Labels.exists_occurrence (hc : Canonical rules c)
    (ha : Augmented rules accept start base terminalCount)
    (hl : Labels rules c accept terminalCount base labels labelled) {l : LabelledRule}
    (hmem : l ∈ labelled) {before' behind' : List SymbolId} {y : SymbolId}
    (hrhs : l.rhs = before' ++ y :: behind') (hy : terminalCount ≤ y) :
    ∃ rule before x behind q q' q'',
      SpellsRule rules c accept terminalCount base labels l rule ∧
      rule.rhs = before ++ x :: behind ∧ c.Walk l.source before q ∧ terminalCount ≤ x ∧
      SpellsLhs c accept terminalCount base labels q x y ∧
      SpellsWalk c terminalCount base labels q' behind behind' q'' := by
  obtain ⟨rule, hrule⟩ := hl.sound hmem
  have hw := hrule.rhs
  rw [hrhs] at hw
  obtain ⟨before, rest, q, hsplit, hbefore, hrest⟩ := hw.exists_of_append_right
  rcases hrest with _ | ⟨he, hy', hbehind⟩
  exact ⟨rule, before, _, _, q, _, _, hrule, hsplit, hbefore.walk,
    (hy'.le_iff ha.le_symbolCount).1 hy, .inr ⟨hc.ne_accept_of_edge ha he, _, he, hy'⟩, hbehind⟩

/-- An occurrence on the walk of a rule is one in its labelled rule. -/
theorem Labels.exists_spelled_occurrence (hc : Canonical rules c)
    (ha : Augmented rules accept start base terminalCount)
    (hl : Labels rules c accept terminalCount base labels labelled) {p q : StateId} {r : RuleId}
    {rule : Rule} (hr : rules[r]? = some rule) (hp : c.Holds p ⟨r, 0⟩)
    {before behind : List SymbolId} {x y : SymbolId} (hrhs : rule.rhs = before ++ x :: behind)
    (hw : c.Walk p before q) (hy : SpellsLhs c accept terminalCount base labels q x y) :
    ∃ l ∈ labelled, ∃ before' behind' q' q'', l.rhs = before' ++ y :: behind' ∧
      SpellsLhs c accept terminalCount base labels p rule.lhs l.lhs ∧
      SpellsWalk c terminalCount base labels q' behind behind' q'' := by
  obtain ⟨l, hmem, hrule, rfl, -⟩ := hl.exists_spellsRule hp hr
  have hspells := hrule.rhs
  rw [hrhs] at hspells
  obtain ⟨before', rest, q₁, hsplit, hbefore, hrest⟩ := hspells.exists_of_append
  obtain rfl := hc.walk_unique hw hbefore.walk
  rcases hrest with _ | ⟨he, hy', hbehind⟩
  obtain rfl := hy.unique hc (.inr ⟨hc.ne_accept_of_edge ha he, _, he, hy'⟩)
  exact ⟨l, hmem, before', _, _, _, hsplit, hrule.lhs, hbehind⟩

/-- What follows a spelling follows the nonterminal in its state. -/
theorem Labels.exists_followsAt (hc : Canonical rules c)
    (ha : Augmented rules accept start base terminalCount)
    (hl : Labels rules c accept terminalCount base labels labelled) {y t : SymbolId}
    (h : Follows (labelled.map LabelledRule.toProduction) terminalCount y t) :
    ∃ q x, SpellsLhs c accept terminalCount base labels q x y ∧ terminalCount ≤ x ∧
      FollowsAt rules terminalCount c q x t := by
  induction h with
  | start hhead =>
    obtain ⟨l, hl₀, horigin⟩ := hl.head
    rw [List.head?_map, hl₀] at hhead
    obtain rfl := Option.some.inj hhead
    obtain ⟨rule, hrule⟩ := hl.sound (List.mem_of_head? hl₀)
    have hsource := hrule.holds
    rw [horigin] at hsource
    refine ⟨l.source, rule.lhs, hrule.lhs, ha.le_lhs hrule.origin, ?_⟩
    rw [hc.eq_initial_of_holds_start ha hsource]
    exact .start (horigin ▸ hrule.origin)
  | next hp hrhs hy ht =>
    obtain ⟨l, hmem, rfl⟩ := List.mem_map.1 hp
    obtain ⟨rule, before, x, behind, q, q', q'', hrule, hsplit, hw, hx, hlhs, hbehind⟩ :=
      hl.exists_occurrence hc ha hmem hrhs hy
    exact ⟨q, x, hlhs, hx, .next hrule.origin hrule.holds hsplit hw hx
      ((hl.begins_iff hc ha hbehind).1 ht)⟩
  | last hp hrhs hy hv _ ih =>
    obtain ⟨l, hmem, rfl⟩ := List.mem_map.1 hp
    obtain ⟨rule, before, x, behind, q, q', q'', hrule, hsplit, hw, hx, hlhs, hbehind⟩ :=
      hl.exists_occurrence hc ha hmem hrhs hy
    obtain ⟨q₀, x₀, hlhs₀, hx₀, hf⟩ := ih
    obtain ⟨rfl, rfl⟩ := hlhs₀.inj ha.accept_lt hrule.lhs hx₀ (ha.le_lhs hrule.origin)
    exact ⟨q, x, hlhs, hx, .last hrule.origin hrule.holds hsplit hw hx
      ((hl.vanishes_iff hc ha hbehind).1 hv) hf⟩

/-- What follows a nonterminal in a state follows its spelling. -/
theorem Labels.follows (hc : Canonical rules c)
    (ha : Augmented rules accept start base terminalCount)
    (hl : Labels rules c accept terminalCount base labels labelled) {q : StateId} {x y t : SymbolId}
    (h : FollowsAt rules terminalCount c q x t)
    (hy : SpellsLhs c accept terminalCount base labels q x y) :
    Follows (labelled.map LabelledRule.toProduction) terminalCount y t := by
  induction h generalizing y with
  | @start rule hr =>
    obtain rfl := Option.some.inj (ha.start_rule.symm.trans hr)
    obtain ⟨l, hl₀, horigin⟩ := hl.head
    obtain ⟨rule, hrule⟩ := hl.sound (List.mem_of_head? hl₀)
    obtain rfl := Option.some.inj (ha.start_rule.symm.trans (horigin ▸ hrule.origin))
    have hsource := hrule.holds
    rw [horigin] at hsource
    have hlhs := hrule.lhs
    rw [hc.eq_initial_of_holds_start ha hsource] at hlhs
    obtain rfl := hlhs.unique hc hy
    exact .start (p := l.toProduction) (by rw [List.head?_map, hl₀]; rfl)
  | next hr hp hrhs hw hx ht =>
    obtain ⟨l, hmem, before', behind', q', q'', hsplit, -, hbehind⟩ :=
      hl.exists_spelled_occurrence hc ha hr hp hrhs hw hy
    exact .next (List.mem_map_of_mem hmem) hsplit (hy.le ha.le_symbolCount ha.le_accept hx)
      ((hl.begins_iff hc ha hbehind).2 ht)
  | last hr hp hrhs hw hx hv _ ih =>
    obtain ⟨l, hmem, before', behind', q', q'', hsplit, hlhs, hbehind⟩ :=
      hl.exists_spelled_occurrence hc ha hr hp hrhs hw hy
    exact .last (List.mem_map_of_mem hmem) hsplit (hy.le ha.le_symbolCount ha.le_accept hx)
      ((hl.vanishes_iff hc ha hbehind).2 hv) (ih hlhs)

/-- **What follows a spelling is what follows the nonterminal in its state.** -/
theorem Labels.follows_iff_followsAt (hc : Canonical rules c)
    (ha : Augmented rules accept start base terminalCount)
    (hl : Labels rules c accept terminalCount base labels labelled) {q : StateId} {x y t : SymbolId}
    (hy : SpellsLhs c accept terminalCount base labels q x y) (hx : terminalCount ≤ x) :
    Follows (labelled.map LabelledRule.toProduction) terminalCount y t ↔
      FollowsAt rules terminalCount c q x t := by
  refine ⟨fun h => ?_, fun h => hl.follows hc ha h hy⟩
  obtain ⟨q₁, x₁, hy₁, hx₁, hf⟩ := hl.exists_followsAt hc ha h
  obtain ⟨rfl, rfl⟩ := hy₁.inj ha.accept_lt hy hx₁ hx
  exact hf

/-- The labelled rules are over the symbols and the labels. -/
theorem Labels.within (ha : Augmented rules accept start base terminalCount)
    (hl : Labels rules c accept terminalCount base labels labelled) :
    Analysis.Within (labelled.map LabelledRule.toProduction) (base + labels.size)
      terminalCount := by
  refine ⟨fun p hp => ?_, fun p hp => ?_, fun p hp => ?_⟩ <;>
    obtain ⟨l, hmem, rfl⟩ := List.mem_map.1 hp <;> obtain ⟨rule, hrule⟩ := hl.sound hmem
  · exact hrule.lhs.lt ha.le_symbolCount ha.accept_lt
  · exact hrule.lhs.le ha.le_symbolCount ha.le_accept (ha.le_lhs hrule.origin)
  · exact hrule.rhs.lt ha.le_symbolCount

end Labels

end LabelledGrammar
end ShiftReduce

import ShiftReduce.Proofs.Automaton
import ShiftReduce.Proofs.Forest
import ShiftReduce.Proofs.Kernels

/-!
# Proofs/Labelling — the labelled grammar is the grammar, split by states

Without its states, a labelled rule is the rule that it comes from (`SpellsRule.eraseRule_eq`).  So
what labelled rules derive, rules derive (`Derivation.Derives.map`); and what rules derive from a
form, labelled rules derive from each of its spellings (`Labels.derives_of_parses`).  Every goto has
a label, since it stands in a rule that begins somewhere, and every label is that of a goto
(`Grounded`).
-/

namespace ShiftReduce.LabelledGrammar

open ShiftReduce.Derivation Collection

variable {g : LabelledGrammar} {rules : Array Rule} {c : Collection} {a : Analysis}
  {limits : Limits} {labels labels' : Numbering Label} {accept start terminalCount base : Nat}

/-! ## Erasing labels -/

/-- The symbol that a label is of, and any other symbol as it is. -/
def erase (g : LabelledGrammar) (y : SymbolId) : SymbolId := ((g.label? y).map Label.symbol).getD y

/-- A labelled rule without its labels. -/
def eraseRule (g : LabelledGrammar) (l : LabelledRule) : Production :=
  ⟨g.erase l.lhs, l.rhs.map g.erase⟩

theorem label?_eq_some_iff {y : SymbolId} {label : Label} :
    g.label? y = some label ↔ ∃ n, g.labels.value? n = some label ∧ y = g.base + n := by
  unfold label?
  constructor
  · intro h
    obtain ⟨hle, h⟩ := Option.ite_none_right_eq_some.1 h
    exact ⟨y - g.base, h, (Nat.add_sub_of_le hle).symm⟩
  · rintro ⟨n, h, rfl⟩
    rwa [if_pos (Nat.le_add_right g.base n), Nat.add_sub_cancel_left]

/-- The labels have consecutive numbers. -/
theorem isSome_label?_iff {y : SymbolId} :
    (g.label? y).isSome ↔ g.base ≤ y ∧ y < g.base + g.labels.size := by
  rw [Option.isSome_iff_exists]
  simp only [label?_eq_some_iff]
  constructor
  · rintro ⟨label, n, hn, rfl⟩
    exact ⟨Nat.le_add_right _ n, Nat.add_lt_add_left (Numbering.lt_size_of_value? hn) _⟩
  · rintro ⟨hle, hlt⟩
    have hlt : y - g.base < g.labels.size := Nat.sub_lt_left_of_lt_add hle hlt
    exact ⟨_, _, Array.getElem?_eq_getElem hlt, (Nat.add_sub_of_le hle).symm⟩

theorem eq_of_label?_eq {y y' : SymbolId} {label : Label} (h : g.label? y = some label)
    (h' : g.label? y' = some label) : y = y' := by
  obtain ⟨n, hn, rfl⟩ := label?_eq_some_iff.1 h
  obtain ⟨n', hn', rfl⟩ := label?_eq_some_iff.1 h'
  rw [Numbering.eq_of_value?_eq hn hn']

theorem erase_of_lt {y : SymbolId} (h : y < g.base) : g.erase y = y := by
  unfold erase label?
  rw [if_neg (Nat.not_le_of_lt h)]
  rfl

theorem erase_of_label? {y : SymbolId} {label : Label} (h : g.label? y = some label) :
    g.erase y = label.symbol := by
  unfold erase
  rw [h]
  rfl

theorem Spells.erase_eq (hbase : terminalCount ≤ g.base) {q q' : StateId} {x y : SymbolId}
    (h : Spells terminalCount g.base g.labels q x q' y) : g.erase y = x := by
  rcases h with ⟨hlt, rfl⟩ | ⟨-, hlabel⟩
  · exact erase_of_lt (Nat.lt_of_lt_of_le hlt hbase)
  · exact erase_of_label? (label?_eq_some_iff.2 hlabel)

theorem SpellsWalk.map_erase_eq (hbase : terminalCount ≤ g.base) {q q' : StateId}
    {xs ys : List SymbolId} (h : SpellsWalk c terminalCount g.base g.labels q xs ys q') :
    ys.map g.erase = xs := by
  induction h with
  | nil => rfl
  | cons _ hy _ ih => rw [List.map_cons, hy.erase_eq hbase, ih]

theorem SpellsLhs.erase_eq (hbase : terminalCount ≤ g.base) (haccept : accept < g.base)
    {q : StateId} {x y : SymbolId}
    (h : SpellsLhs c accept terminalCount g.base g.labels q x y) : g.erase y = x := by
  rcases h with ⟨rfl, -, rfl⟩ | ⟨-, q', -, hy⟩
  · exact erase_of_lt haccept
  · exact hy.erase_eq hbase

/-- A labelled rule without its labels is the rule that it spells. -/
theorem SpellsRule.eraseRule_eq (ha : Augmented rules accept start g.base terminalCount)
    {l : LabelledRule} {rule : Rule}
    (h : SpellsRule rules c accept terminalCount g.base g.labels l rule) :
    g.eraseRule l = rule.toProduction := by
  unfold eraseRule
  rw [h.lhs.erase_eq ha.le_symbolCount ha.accept_lt, h.rhs.map_erase_eq ha.le_symbolCount]

/-! ## The labels -/

/-- Every label is that of an edge over a nonterminal. -/
def Grounded (c : Collection) (terminalCount : Nat) (labels : Numbering Label) : Prop :=
  ∀ n label, labels.value? n = some label →
    terminalCount ≤ label.symbol ∧ c.Edge label.source label.symbol label.target

/-- A further label of an edge. -/
theorem Grounded.push (hg : Grounded c terminalCount labels) {label : Label}
    (hle : terminalCount ≤ label.symbol) (he : c.Edge label.source label.symbol label.target)
    (hfresh : labels.number? label = none) :
    Grounded c terminalCount (labels.push label hfresh) := by
  intro n label' hn
  rw [Numbering.value?_push] at hn
  split at hn
  · obtain rfl := Option.some.inj hn
    exact ⟨hle, he⟩
  · exact hg n label' hn

theorem Grounded.of_number (hg : Grounded c terminalCount labels) {label : Label} {y : SymbolId}
    (hle : terminalCount ≤ label.symbol) (he : c.Edge label.source label.symbol label.target)
    (h : number base limits label labels = .ok (y, labels')) :
    Grounded c terminalCount labels' := by
  unfold number at h
  split at h
  · obtain ⟨-, rfl⟩ := Prod.mk.inj (Except.ok.inj h)
    exact hg
  next hfresh =>
  dsimp only at h
  split at h
  · exact nomatch h
  split at h
  · exact nomatch h
  obtain ⟨-, rfl⟩ := Prod.mk.inj (Except.ok.inj h)
  exact hg.push hle he hfresh

theorem Grounded.of_walk (hc : Canonical rules c)
    (hcount : ∀ {q x q'}, c.Edge q x q' → x < a.symbolCount) (hg : Grounded c terminalCount labels)
    {q target : StateId} {xs ys : List SymbolId}
    (h : walk (c.table a) terminalCount base limits q xs labels = .ok (ys, target, labels')) :
    Grounded c terminalCount labels' := by
  induction xs generalizing q ys labels with
  | nil =>
    simp only [walk, Except.ok.injEq, Prod.mk.injEq] at h
    obtain ⟨-, -, rfl⟩ := h
    exact hg
  | cons x xs ih =>
    obtain ⟨next, y, labels₁, rest, hnext, hy, hw, -⟩ := exists_of_walk_cons h
    rcases hy with ⟨-, -, rfl⟩ | ⟨hx, hy⟩
    · exact ih hg hw
    · exact ih (hg.of_number hx (edge_of_stepFrom hc hcount hnext) hy) hw

theorem Grounded.of_labelRule (hc : Canonical rules c)
    (ha : Augmented rules accept start base terminalCount)
    (hcount : ∀ {q x q'}, c.Edge q x q' → x < a.symbolCount) (hg : Grounded c terminalCount labels)
    {q : StateId} {r : RuleId} {rule : Rule} (hr : rules[r]? = some rule) {l : LabelledRule}
    (h : labelRule (c.table a) terminalCount base limits q r rule labels = .ok (l, labels')) :
    Grounded c terminalCount labels' := by
  obtain ⟨lhs, rhs, target, labels₁, hw, hlhs, -⟩ := exists_of_labelRule h
  have hg₁ := hg.of_walk hc hcount hw
  rcases hlhs with ⟨-, -, rfl⟩ | ⟨-, next, hnext, hl⟩
  · exact hg₁
  · exact hg₁.of_number (ha.le_lhs hr) (edge_of_stepFrom hc hcount hnext) hl

theorem base_of_build {symbols : Registry} (h : build rules c a symbols limits = .ok g) :
    g.base = symbols.size := by
  obtain ⟨⟨done, count, labels⟩, -, h⟩ := Except.bind_eq_ok h
  obtain rfl := Except.ok.inj h
  rfl

theorem analysis_of_build {symbols : Registry} (h : build rules c a symbols limits = .ok g) :
    g.analysis = .compute (g.rules.map LabelledRule.toProduction) (symbols.size + g.labels.size)
      symbols.terminalCount := by
  obtain ⟨⟨done, count, labels⟩, -, h⟩ := Except.bind_eq_ok h
  obtain rfl := Except.ok.inj h
  rfl

/-- **There are labels of gotos only.** -/
theorem grounded_of_build (hc : Canonical rules c) {symbols : Registry}
    (ha : Augmented rules accept start symbols.size symbols.terminalCount)
    (hcount : ∀ {q x q'}, c.Edge q x q' → x < a.symbolCount)
    (h : build rules c a symbols limits = .ok g) :
    Grounded c symbols.terminalCount g.labels := by
  obtain ⟨⟨done, count, labels⟩, hall, h⟩ := Except.bind_eq_ok h
  obtain rfl := Except.ok.inj h
  refine Except.foldlM_induction (p := fun s => Grounded c symbols.terminalCount s.2.2)
    (fun b hb s s' hg hs => ?_) (fun n label hn => ?_) hall
  · obtain ⟨l, labels', hl, rfl⟩ := exists_of_labelNext hs
    exact Grounded.of_labelRule hc ha hcount hg (mem_begun.1 hb).2 hl
  · simp [Numbering.value?, Numbering.empty] at hn

/-- A label spells the step that it is of. -/
theorem Grounded.spells (hg : Grounded c terminalCount g.labels) {x y : SymbolId} {p q : StateId}
    (hy : g.label? y = some ⟨x, p, q⟩) : terminalCount ≤ x ∧ c.Edge p x q ∧
      Spells terminalCount g.base g.labels p x q y := by
  obtain ⟨n, hn, rfl⟩ := label?_eq_some_iff.1 hy
  obtain ⟨hle, he⟩ := hg n _ hn
  exact ⟨hle, he, .inr ⟨hle, n, hn, rfl⟩⟩

/-- Every edge over a nonterminal has a label: it is walked by a rule. -/
theorem Labels.exists_of_edge (hc : Canonical rules c)
    (ha : Augmented rules accept start base terminalCount) {labelled : List LabelledRule}
    (hl : Labels rules c accept terminalCount base labels labelled) {p q : StateId} {x : SymbolId}
    (he : c.Edge p x q) (hx : terminalCount ≤ x) : ∃ n, labels.value? n = some ⟨x, p, q⟩ := by
  obtain ⟨⟨r, dot⟩, hi, hnext⟩ := hc.exists_edge_iff.1 ⟨q, he⟩
  obtain ⟨rule, hr, hdot⟩ := Item.next?_eq_some_iff.1 hnext
  obtain ⟨p₀, rule', hr', hp₀, hw⟩ := hc.exists_begin ha hi
  obtain rfl := Option.some.inj (hr.symm.trans hr')
  have hrhs : rule.rhs = rule.rhs.take dot ++ x :: rule.rhs.drop (dot + 1) := by
    obtain ⟨hlt, rfl⟩ := List.getElem?_eq_some_iff.1 hdot
    rw [List.getElem_cons_drop, List.take_append_drop]
  obtain ⟨l, -, hrule, rfl, -⟩ := hl.exists_spellsRule hp₀ hr
  have hspells := hrule.rhs
  rw [hrhs] at hspells
  obtain ⟨before, rest, p₁, -, hbefore, hrest⟩ := hspells.exists_of_append
  obtain rfl := hc.walk_unique hw hbefore.walk
  rcases hrest with _ | ⟨he', hy, -⟩
  obtain rfl := hc.edge_unique he he'
  rcases hy with ⟨hlt, -⟩ | ⟨-, n, hn, -⟩
  · exact absurd hx (Nat.not_le_of_lt hlt)
  · exact ⟨n, hn⟩

/-! ## The rules of a label -/

/-- The labelled rules of a left-hand side. -/
def rulesOf (g : LabelledGrammar) (y : SymbolId) : List LabelledRule := g.rules.filter (·.lhs == y)

theorem mem_rulesOf {y : SymbolId} {l : LabelledRule} :
    l ∈ g.rulesOf y ↔ l ∈ g.rules ∧ l.lhs = y := by
  simp [rulesOf]

/-- No rule begins twice in a state. -/
theorem nodup_begun
    (hitems : ∀ {q : StateId} {s : State}, c.states[q]? = some s → s.items.Nodup) :
    ((begun rules c).map fun (q, r, _) => (q, r)).Nodup := by
  have begins {q : StateId} {i : Item} {b : StateId × RuleId × Rule}
      (h : (if i.dot = 0 then (rules[i.rule]?).map fun rule => (q, i.rule, rule) else none) =
        some b) : b.1 = q ∧ i = ⟨b.2.1, 0⟩ := by
    obtain ⟨hdot, h⟩ := Option.ite_none_right_eq_some.1 h
    obtain ⟨rule, -, rfl⟩ := Option.map_eq_some_iff.1 h
    exact ⟨rfl, congrArg (Item.mk i.rule) hdot⟩
  have hstates := Distinct.nodup_map_snd_zipIdx c.states.toList
  refine List.Nodup.map_on (fun (q, r, rule) hb (q', r', rule') hb' heq => ?_)
    (List.nodup_flatMap.2 ⟨fun (s, q) hs => ?_, (List.pairwise_map.1 hstates).imp fun hne => ?_⟩)
  · obtain ⟨rfl, rfl⟩ := Prod.mk.inj heq
    obtain rfl := Option.some.inj ((mem_begun.1 hb).2.symm.trans (mem_begun.1 hb').2)
    rfl
  · rw [List.mem_zipIdx_iff_getElem?, Array.getElem?_toList] at hs
    exact (hitems hs).filterMap fun i i' b hb hb' => (begins hb).2.trans (begins hb').2.symm
  · simp only [Function.onFun, List.disjoint_left, List.mem_filterMap]
    rintro b ⟨i, -, hb⟩ ⟨i', -, hb'⟩
    exact hne ((begins hb).1.symm.trans (begins hb').1)

/-- Labelled rules are told apart by the states in which they begin and their rules. -/
theorem nodup_rules_of_build (hc : Canonical rules c) {symbols : Registry}
    (ha : Augmented rules accept start symbols.size symbols.terminalCount)
    (hcount : ∀ {q x q'}, c.Edge q x q' → x < a.symbolCount)
    (hitems : ∀ {q : StateId} {s : State}, c.states[q]? = some s → s.items.Nodup)
    (h : build rules c a symbols limits = .ok g) :
    (g.rules.map fun l => (l.source, l.origin)).Nodup := by
  obtain ⟨⟨done, count, labels⟩, hall, h⟩ := Except.bind_eq_ok h
  obtain rfl := Except.ok.inj h
  obtain ⟨-, new, rfl, -, hmap⟩ := of_labelAll hc ha hcount
    (fun q r rule hb => mem_begun.1 hb) hall
  dsimp only
  rw [List.append_nil, List.reverse_reverse, hmap]
  exact nodup_begun hitems

section Labels

variable (hc : Canonical rules c) (ha : Augmented rules accept start g.base terminalCount)
  (hl : Labels rules c accept terminalCount g.base g.labels g.rules)

include hc ha hl

/-- **The labelled rules of a label are the rules of its nonterminal**, each once. -/
theorem Labels.origins (hnodup : (g.rules.map fun l => (l.source, l.origin)).Nodup)
    {p q : StateId} {x y : SymbolId} (he : c.Edge p x q)
    (hy : Spells terminalCount g.base g.labels p x q y) :
    ((g.rulesOf y).map (·.origin)).Nodup ∧
      ∀ r, r ∈ (g.rulesOf y).map (·.origin) ↔ ∃ rule, rules[r]? = some rule ∧ rule.lhs = x := by
  have hsource {l : LabelledRule} (h : l ∈ g.rulesOf y) :
      ∃ rule, rules[l.origin]? = some rule ∧ rule.lhs = x ∧ l.source = p := by
    obtain ⟨hmem, rfl⟩ := mem_rulesOf.1 h
    obtain ⟨rule, hrule, hlhs, hp⟩ := hl.exists_rule_of_spells hc ha hmem he hy
    exact ⟨rule, hrule.origin, hlhs, hp⟩
  constructor
  · have hmap : ((g.rulesOf y).map (·.origin)).map (p, ·) =
        (g.rulesOf y).map fun l => (l.source, l.origin) := by
      rw [List.map_map]
      refine List.map_congr_left fun l h => ?_
      obtain ⟨-, -, -, hp⟩ := hsource h
      rw [Function.comp_apply, hp]
    refine List.Nodup.of_map (p, ·) ?_
    rw [hmap]
    exact hnodup.sublist (List.filter_sublist.map _)
  · refine fun r => ⟨fun h => ?_, fun ⟨rule, hr, hlhs⟩ => ?_⟩
    · obtain ⟨l, hl, rfl⟩ := List.mem_map.1 h
      obtain ⟨rule, hr, hlhs, -⟩ := hsource hl
      exact ⟨rule, hr, hlhs⟩
    · subst hlhs
      obtain ⟨l, hmem, hrule, rfl, rfl⟩ :=
        hl.exists_spellsRule (hc.holds_predicted_of_edge he hr) hr
      have hlhs := hrule.lhs.unique hc (.inr ⟨hc.ne_accept_of_edge ha he, q, he, hy⟩)
      exact List.mem_map_of_mem (mem_rulesOf.2 ⟨hmem, hlhs⟩)

/-- A label and what it is of have the same sets. -/
theorem Labels.sets_eq (hanalysis : g.analysis = .compute (g.rules.map LabelledRule.toProduction)
      (g.base + g.labels.size) terminalCount) {p q : StateId} {x y : SymbolId}
    (he : c.Edge p x q) (hy : Spells terminalCount g.base g.labels p x q y)
    (hx : terminalCount ≤ x) :
    (y ∈ g.analysis.nullable ↔
        x ∈ (Analysis.compute (productions rules) g.base terminalCount).nullable) ∧
      g.analysis.firstSet y =
        (Analysis.compute (productions rules) g.base terminalCount).firstSet x := by
  have hP := within_of_augmented ha
  have hP' := hl.within ha
  have hvanishes := hl.vanishes_iff hc ha (.single he hy)
  rw [hanalysis]
  refine ⟨?_, SymbolSet.ext fun t => ?_⟩
  · rw [Analysis.mem_nullable_iff hP', Analysis.mem_nullable_iff hP, hvanishes]
  by_cases ht : t = SymbolId.epsilon
  · subst ht
    rw [Analysis.epsilon_mem_firstSet_iff hP' ((hy.le_iff ha.le_symbolCount).2 hx),
      Analysis.epsilon_mem_firstSet_iff hP hx, hvanishes]
  · have hle := Nat.le_trans ha.le_symbolCount (Nat.le_add_right g.base g.labels.size)
    rw [Analysis.mem_firstSet_iff hP' hle ht, Analysis.mem_firstSet_iff hP ha.le_symbolCount ht,
      hl.begins_iff hc ha (.single he hy)]

/-! ### Sentences -/

/-- What a form derives, each of its spellings derives. -/
theorem Labels.derives_of_parses {q q' : StateId} {xs ys : List SymbolId} {F : Forest SymbolId}
    (hF : F.Parses rules terminalCount id xs)
    (h : SpellsWalk c terminalCount g.base g.labels q xs ys q') :
    Derives (g.rules.map LabelledRule.toProduction) ys F.yield := by
  induction hF generalizing q ys q' with
  | nil =>
    cases h
    exact .refl []
  | leaf _ ht ih =>
    obtain ⟨before, behind, q₁, rfl, hbefore, hbehind⟩ := h.exists_of_append
    rcases hbehind with _ | ⟨-, hy, _ | _⟩
    rcases hy with ⟨-, rfl⟩ | ⟨hle, -⟩
    · exact (ih hbefore).append_right _
    · exact absurd hle (Nat.not_le_of_lt ht)
  | node _ hr _ ih ihc =>
    obtain ⟨before, behind, q₁, rfl, hbefore, hbehind⟩ := h.exists_of_append
    rcases hbehind with _ | ⟨he, hy, _ | _⟩
    obtain ⟨l, hmem, hrule, rfl⟩ := hl.exists_spellsRule_of_edge hc ha hr he hy
    have hnode : Derives (g.rules.map LabelledRule.toProduction) [l.lhs] _ :=
      (Derives.of_mem (List.mem_map_of_mem hmem)).trans (ihc hrule.rhs)
    exact (ih hbefore).append hnode

omit hc in
/-- What labelled rules derive, the rules derive without the labels. -/
theorem Labels.derives_map_erase {xs ys : List SymbolId}
    (h : Derives (g.rules.map LabelledRule.toProduction) xs ys) :
    Derives (productions rules) (xs.map g.erase) (ys.map g.erase) := by
  refine h.map fun p hp => ?_
  obtain ⟨l, hmem, rfl⟩ := List.mem_map.1 hp
  obtain ⟨rule, hrule⟩ := hl.sound hmem
  exact mem_productions.2 ⟨l.origin, rule, hrule.origin, (hrule.eraseRule_eq ha).symm⟩

/-- **The labelled rules derive the same sentences** from `S'`. -/
theorem Labels.derives_iff {ts : List SymbolId} (hts : ∀ t ∈ ts, t < terminalCount) :
    Derives (g.rules.map LabelledRule.toProduction) [accept] ts ↔
      Derives (productions rules) [accept] ts := by
  have herase {xs : List SymbolId} (h : ∀ x ∈ xs, x < g.base) : xs.map g.erase = xs :=
    (List.map_congr_left fun x hx => erase_of_lt (h x hx)).trans xs.map_id
  constructor
  · intro h
    have hterminals : ∀ t ∈ ts, t < g.base := fun t ht =>
      Nat.lt_of_lt_of_le (hts t ht) ha.le_symbolCount
    rw [← herase (List.forall_mem_singleton.2 ha.accept_lt), ← herase hterminals]
    exact hl.derives_map_erase ha h
  · intro h
    rcases h.eq_or_exists with rfl | ⟨p, hp, hlhs, h⟩
    · exact absurd ha.le_accept (Nat.not_le_of_lt (hts accept List.mem_cons_self))
    obtain ⟨r, rule, hr, rfl⟩ := mem_productions.1 hp
    -- only the start rule derives anything from `S'`, and it begins in the initial state
    have hbegins : c.Holds StateId.initial ⟨r, 0⟩ := ha.eq_start hr hlhs ▸ hc.holds_initial
    obtain ⟨l, hmem, hrule, -, -⟩ := hl.exists_spellsRule hbegins hr
    have haccept : l.lhs = accept := by
      rcases hrule.lhs with ⟨-, -, h⟩ | ⟨hne, -⟩
      · exact h
      · exact absurd hlhs hne
    obtain ⟨F, hF, rfl⟩ := Forest.exists_parses_of_derives h hts
    have hfirst : Derives (g.rules.map LabelledRule.toProduction) [l.lhs] l.rhs :=
      .of_mem (List.mem_map_of_mem hmem)
    rw [haccept] at hfirst
    exact hfirst.trans (hl.derives_of_parses hc ha hF hrule.rhs)

end Labels

/-! ## Walking through the table -/

/-- A right-hand side is walked through the cells of a table: over a terminal by a shift, and over a
label by the goto that it is of. -/
inductive Traces (g : LabelledGrammar) (table : CellTable) :
    StateId → List SymbolId → StateId → Prop
  | nil (q : StateId) : Traces g table q [] q
  | shift {q q' q'' : StateId} {y : SymbolId} {ys : List SymbolId}
      (hcell : table.cell q y = .shift q') (h : Traces g table q' ys q'') :
      Traces g table q (y :: ys) q''
  | goto {q q' q'' : StateId} {x y : SymbolId} {ys : List SymbolId}
      (hy : g.label? y = some ⟨x, q, q'⟩) (hcell : table.cell q x = .goto q')
      (h : Traces g table q' ys q'') : Traces g table q (y :: ys) q''

/-- What the labelled grammar has to do with the grammar: each goto has a label, whose rules are
those of its nonterminal; and the sets and sentences are the same. -/
structure Splits (g : LabelledGrammar) (rules : Array Rule) (symbols : Registry)
    (table : CellTable) (accept : SymbolId) : Prop where
  /-- The labels have the numbers behind those of the symbols. -/
  isSome_label?_iff {y : SymbolId} :
    (g.label? y).isSome ↔ symbols.size ≤ y ∧ y < symbols.size + g.labels.size
  eq_of_label?_eq {y y' : SymbolId} {label : Label} (h : g.label? y = some label)
    (h' : g.label? y' = some label) : y = y'
  exists_label?_iff {x : SymbolId} {p q : StateId} :
    (∃ y, g.label? y = some ⟨x, p, q⟩) ↔ table.cell p x = .goto q
  /-- A labelled rule without its labels is the rule that it comes from. -/
  erase {l : LabelledRule} (h : l ∈ g.rules) :
    (rules[l.origin]?).map Rule.toProduction = some (g.eraseRule l)
  /-- The labelled rules of a label come from the rules of its nonterminal, one from each. -/
  origins {x y : SymbolId} {p q : StateId} (h : g.label? y = some ⟨x, p, q⟩) :
    ((g.rulesOf y).map (·.origin)).Nodup ∧
      ∀ r, r ∈ (g.rulesOf y).map (·.origin) ↔ ∃ rule, rules[r]? = some rule ∧ rule.lhs = x
  traces {x y : SymbolId} {p q : StateId} (h : g.label? y = some ⟨x, p, q⟩) {l : LabelledRule}
    (hl : l ∈ g.rulesOf y) : l.source = p ∧ g.Traces table p l.rhs l.target
  sets_eq {x y : SymbolId} {p q : StateId} (h : g.label? y = some ⟨x, p, q⟩) :
    (y ∈ g.analysis.nullable ↔ x ∈ (Automaton.analyze symbols rules).nullable) ∧
      g.analysis.firstSet y = (Automaton.analyze symbols rules).firstSet x
  derives_iff {ts : List SymbolId} (hts : ∀ t ∈ ts, t < symbols.terminalCount) :
    Derives (g.rules.map LabelledRule.toProduction) [accept] ts ↔
      Derives (productions rules) [accept] ts

section Splits

variable {symbols : Registry} (hc : Canonical rules c)
  (ha : Augmented rules accept start symbols.size symbols.terminalCount)

include hc ha

theorem SpellsWalk.traces {q q' : StateId} {xs ys : List SymbolId}
    (h : SpellsWalk c symbols.terminalCount g.base g.labels q xs ys q') :
    g.Traces (c.table (Automaton.analyze symbols rules)) q ys q' := by
  induction h with
  | nil q => exact .nil q
  | cons he hy _ ih =>
    rcases hy with ⟨hlt, rfl⟩ | ⟨hle, hlabel⟩
    · refine .shift ((Automaton.cell_table_iff ha hc Cell.noConfusion).2 ⟨_, he, ?_⟩) ih
      rw [if_pos hlt]
    · refine .goto (label?_eq_some_iff.2 hlabel)
        ((Automaton.cell_table_iff ha hc Cell.noConfusion).2 ⟨_, he, ?_⟩) ih
      rw [if_neg (Nat.not_lt_of_le hle)]

/-- **There is a label for each goto**, and for nothing else. -/
theorem Labels.exists_label?_iff (hbase : g.base = symbols.size)
    (hl : Labels rules c accept symbols.terminalCount g.base g.labels g.rules)
    (hg : Grounded c symbols.terminalCount g.labels) {x : SymbolId} {p q : StateId} :
    (∃ y, g.label? y = some ⟨x, p, q⟩) ↔
      (c.table (Automaton.analyze symbols rules)).cell p x = .goto q := by
  rw [Automaton.cell_table_iff ha hc Cell.noConfusion]
  constructor
  · rintro ⟨y, hy⟩
    obtain ⟨hle, he, -⟩ := hg.spells hy
    exact ⟨q, he, (if_neg (Nat.not_lt_of_le hle)).symm⟩
  · rintro ⟨q', he, hcell⟩
    split at hcell
    · exact nomatch hcell
    next hx =>
    obtain rfl := Cell.goto.inj hcell
    obtain ⟨n, hn⟩ := hl.exists_of_edge hc (hbase ▸ ha) he (Nat.le_of_not_lt hx)
    exact ⟨g.base + n, label?_eq_some_iff.2 ⟨n, hn, rfl⟩⟩

end Splits

/-- **The labelled grammar is the grammar, split by states.** -/
theorem splits_of_build {flattening collecting : Limits} {source : String} {grammar : Grammar}
    {registry symbols : Registry}
    (hread : (Automaton.readRules flattening source).runOn registry =
      (.ok (grammar, rules), symbols))
    (hcanonical : canonical rules (Automaton.analyze symbols rules) collecting = .ok c)
    (h : build rules c (Automaton.analyze symbols rules) symbols limits = .ok g) :
    ∃ accept, symbols.name? accept = some Grammar.augmentedStart ∧
      g.Splits rules symbols (c.table (Automaton.analyze symbols rules)) accept := by
  obtain ⟨-, accept, ha⟩ := Automaton.augmented_of_readRules hread
  obtain ⟨r, accept', -, haccept, hrules⟩ := Automaton.exists_of_readRules hread
  obtain ⟨⟩ := (Grammar.expanded_of_rulesOver hrules).first.symm.trans ha.start_rule
  have hc := Automaton.canonical_of_augmented ha hcanonical
  have hcount {q q' : StateId} {x : SymbolId} (he : c.Edge q x q') :
      x < (Automaton.analyze symbols rules).symbolCount :=
    Automaton.symbolCount_analyze ▸ hc.lt_symbolCount_of_edge ha he
  have hbase := base_of_build h
  obtain ⟨hlabels, hanalysis⟩ := labels_of_build hc ha hcount rfl h
  have hgrounded := grounded_of_build hc ha hcount h
  have hnodup := nodup_rules_of_build hc ha hcount (nodup_items_of_canonical hcanonical) h
  rw [← hbase] at ha hlabels hanalysis
  refine ⟨accept, (Registry.addNonterminal_ok haccept).1, {
    isSome_label?_iff := hbase ▸ isSome_label?_iff
    eq_of_label?_eq := eq_of_label?_eq
    exists_label?_iff := hlabels.exists_label?_iff hc (hbase ▸ ha) hbase hgrounded
    erase := fun {l} hl => ?_
    origins := fun {x y p q} hy => ?_
    traces := fun {x y p q} hy l hl => ?_
    sets_eq := fun {x y p q} hy => ?_
    derives_iff := hlabels.derives_iff hc ha }⟩
  · obtain ⟨rule, hrule⟩ := hlabels.sound hl
    rw [hrule.origin, hrule.eraseRule_eq ha]
    rfl
  · obtain ⟨-, he, hy⟩ := hgrounded.spells hy
    exact hlabels.origins hc ha hnodup he hy
  · obtain ⟨-, he, hy⟩ := hgrounded.spells hy
    obtain ⟨hmem, rfl⟩ := mem_rulesOf.1 hl
    obtain ⟨rule, hrule, -, rfl⟩ := hlabels.exists_rule_of_spells hc ha hmem he hy
    exact ⟨rfl, hrule.rhs.traces hc (hbase ▸ ha)⟩
  · obtain ⟨hx, he, hy⟩ := hgrounded.spells hy
    have hsets := hlabels.sets_eq hc ha hanalysis he hy hx
    rwa [hbase] at hsets

/-- An expression on the right is reached in three ways, and has a label for each. -/
theorem splits_of_build_assignments : ∃ (grammar : Grammar) (rules : Array Rule)
    (symbols : Registry) (c : Collection) (g : LabelledGrammar) (accept : SymbolId),
    (Automaton.readRules {} "s = l '=' r | r; l = '*' r | IDENT; r = l;").runOn .standard =
      (.ok (grammar, rules), symbols) ∧
    canonical rules (Automaton.analyze symbols rules) {} = .ok c ∧
    build rules c (Automaton.analyze symbols rules) symbols {} = .ok g ∧
    g.Splits rules symbols (c.table (Automaton.analyze symbols rules)) accept ∧
    symbols.name? 42 = some "r" ∧
    g.labels.toList.filter (·.symbol == 42) = [⟨42, 6, 9⟩, ⟨42, 0, 3⟩, ⟨42, 4, 7⟩] := by
  have hok : (match (Automaton.readRules {}
        "s = l '=' r | r; l = '*' r | IDENT; r = l;").runOn .standard with
      | (.ok (_, rules), symbols) =>
        (canonical rules (Automaton.analyze symbols rules) {}).toOption.any fun c =>
          (build rules c (Automaton.analyze symbols rules) symbols {}).toOption.any fun g =>
            decide (symbols.name? 42 = some "r" ∧
              g.labels.toList.filter (·.symbol == 42) = [⟨42, 6, 9⟩, ⟨42, 0, 3⟩, ⟨42, 4, 7⟩])
      | _ => false) = true := by
    decide +kernel
  split at hok
  · next grammar rules symbols hread =>
    obtain ⟨c, hcanonical, hok⟩ := Except.exists_of_any_toOption hok
    obtain ⟨g, hbuild, hok⟩ := Except.exists_of_any_toOption hok
    obtain ⟨hname, hlabels⟩ := of_decide_eq_true hok
    obtain ⟨accept, -, hsplits⟩ := splits_of_build hread hcanonical hbuild
    exact ⟨grammar, rules, symbols, c, g, accept, hread, hcanonical, hbuild, hsplits, hname,
      hlabels⟩
  · exact nomatch hok

end ShiftReduce.LabelledGrammar

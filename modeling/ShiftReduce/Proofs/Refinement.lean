import Mathlib.Data.List.Sort
import ShiftReduce.Proofs.Defect

/-!
# Proofs/Refinement — LALR(1) automata beside SLR(1) automata

What follows a nonterminal in one state follows it in the grammar, so the SLR lookaheads of a
completed item include its LALR lookaheads (`Refines.lookaheads`).  The candidates of a state are
then a sublist of each other, and installing fewer candidates reports no more conflicts
(`length_le_of_installAll`).  Where the SLR table has no conflicts it agrees with the LALR table on
whatever the latter does not reject, and a parser that accepts looks nothing else up
(`Table.Refines.run_eq`).
-/

namespace ShiftReduce

open ShiftReduce.Derivation Collection

/-! ## Lookaheads -/

namespace SymbolSet

theorem pairwise_toList (s : SymbolSet) : s.toList.Pairwise (· < ·) :=
  List.pairwise_lt_range.filter _

/-- The elements of a set are listed in the order in which those of a larger one are. -/
theorem toList_sublist {s t : SymbolSet} (h : ∀ x ∈ s, x ∈ t) : s.toList.Sublist t.toList := by
  have hsubset : s.toList ⊆ t.toList := fun x hx => (mem_toList t x).2 (h x ((mem_toList s x).1 hx))
  have hnodup : s.toList.Nodup := s.pairwise_toList.imp Nat.ne_of_lt
  exact List.sublist_of_subperm_of_sortedLE (hnodup.subperm hsubset)
    s.pairwise_toList.sortedLT.sortedLE t.pairwise_toList.sortedLT.sortedLE

end SymbolSet

/-- What follows a nonterminal in a state follows it in the grammar. -/
theorem Collection.FollowsAt.follows {rules : Array Rule} {terminalCount : Nat} {c : Collection}
    {q : StateId} {x t : SymbolId} (h : FollowsAt rules terminalCount c q x t) :
    Follows (productions rules) terminalCount x t := by
  induction h with
  | @start rule hr =>
    refine .start (p := rule.toProduction) ?_
    rw [productions, List.head?_map, List.head?_eq_getElem?, Array.getElem?_toList]
    exact congrArg (Option.map Rule.toProduction) hr
  | next hr _ hrhs _ hx ht => exact .next (mem_productions_of_getElem? hr) hrhs hx ht
  | last hr _ hrhs _ hx hv _ ih => exact .last (mem_productions_of_getElem? hr) hrhs hx hv ih

namespace Lookaheads

/-- Every lookahead of the one is a lookahead of the other. -/
def Within (l l' : Lookaheads) : Prop :=
  ∀ q r s, l q r = some s → ∀ t ∈ s, ∃ s', l' q r = some s' ∧ t ∈ s'

variable {rules : Array Rule} {symbols : Registry} {c : Collection} {accept start : SymbolId}
  {limits : Limits} {lookaheads : Lookaheads}

open Automaton

/-- The SLR(1) lookaheads are the terminals that follow the left-hand side. -/
theorem mem_slr_iff (ha : Augmented rules accept start symbols.size symbols.terminalCount)
    {q : StateId} {r : RuleId} {t : SymbolId} :
    (∃ s, slr rules (analyze symbols rules) q r = some s ∧ t ∈ s) ↔
      ∃ rule, rules[r]? = some rule ∧
        Follows (productions rules) symbols.terminalCount rule.lhs t ∧ t ≠ SymbolId.epsilon := by
  have hfollow {x : SymbolId} : t ∈ (analyze symbols rules).followSet x ↔
      Follows (productions rules) symbols.terminalCount x t ∧ t ≠ SymbolId.epsilon :=
    Analysis.mem_followSet_iff (within_of_augmented ha) ha.le_symbolCount
  cases hr : rules[r]? with
  | none => simp [slr, hr]
  | some rule => simp [slr, hr, hfollow]

/-- The labelled grammar behind LALR(1) lookaheads. -/
theorem exists_labels_of_lalr (hc : Canonical rules c)
    (ha : Augmented rules accept start symbols.size symbols.terminalCount)
    (h : lookaheadsOf .lalr symbols rules (analyze symbols rules) c limits = .ok lookaheads) :
    ∃ g : LabelledGrammar,
      LabelledGrammar.Labels rules c accept symbols.terminalCount symbols.size g.labels g.rules ∧
      g.analysis = .compute (g.rules.map LabelledRule.toProduction) (symbols.size + g.labels.size)
        symbols.terminalCount ∧ lookaheads = lalr g := by
  obtain ⟨g, hg, h⟩ := Except.bind_eq_ok h
  obtain ⟨hlabels, hanalysis⟩ := LabelledGrammar.labels_of_build hc ha
    (fun he => symbolCount_analyze ▸ hc.lt_symbolCount_of_edge ha he) rfl hg
  rw [lalrOf_eq_ok hc hlabels] at h
  exact ⟨g, hlabels, hanalysis, (Except.ok.inj h).symm⟩

/-- **LALR(1) lookaheads are SLR(1) lookaheads.** -/
theorem within_slr (hc : Canonical rules c)
    (ha : Augmented rules accept start symbols.size symbols.terminalCount)
    (h : lookaheadsOf .lalr symbols rules (analyze symbols rules) c limits = .ok lookaheads) :
    lookaheads.Within (slr rules (analyze symbols rules)) := by
  obtain ⟨g, hlabels, hanalysis, rfl⟩ := exists_labels_of_lalr hc ha h
  intro q r s hs t ht
  obtain ⟨⟨p, rule, hr, -, -, hfollows⟩, hne⟩ :=
    (mem_lalr_iff hc ha hlabels hanalysis).1 ⟨s, hs, ht⟩
  exact (mem_slr_iff ha).2 ⟨rule, hr, hfollows.follows, hne⟩

end Lookaheads

/-! ## Conflicts -/

namespace Completion

variable {q : StateId} {rules : Array Rule} {lookaheads lookaheads' : Lookaheads}

/-- Where one row has an action, so has the other. -/
def Filled (row row' : Array Cell) : Prop :=
  ∀ t : SymbolId, row[t]?.getD .error ≠ Cell.error → row'[t]?.getD .error ≠ Cell.error

/-- A conflict is reported where the cell is taken, and only there. -/
theorem length_conflict_of_compete {t : SymbolId} {current candidate cell : Cell}
    {conflict : Option Conflict} (h : compete q t current candidate = .ok (cell, conflict)) :
    conflict.toList.length = if current = .error then 0 else 1 := by
  unfold compete at h
  split at h
  · obtain ⟨-, rfl⟩ := Prod.mk.inj (Except.ok.inj h)
    rfl
  · obtain ⟨-, rfl⟩ := Prod.mk.inj (Except.ok.inj h)
    rfl
  · exact nomatch h
  · split at h <;> (obtain ⟨-, rfl⟩ := Prod.mk.inj (Except.ok.inj h); rfl)
  · split at h <;> (obtain ⟨-, rfl⟩ := Prod.mk.inj (Except.ok.inj h); rfl)

/-- A candidate fills its cell. -/
theorem cell_ne_error_of_compete {t : SymbolId} {current candidate cell : Cell}
    {conflict : Option Conflict} (h : compete q t current candidate = .ok (cell, conflict))
    (hne : candidate ≠ .error) : cell ≠ .error := by
  obtain ⟨⟨rfl, -⟩ | ⟨rfl, hsome⟩, -⟩ := of_compete h
  · exact hne
  · rintro rfl
    have hlength := length_conflict_of_compete h
    rw [if_pos rfl, List.length_eq_zero_iff, Option.toList_eq_nil_iff] at hlength
    rw [hlength] at hsome
    exact nomatch hsome

theorem getD_setIfInBounds {row : Array Cell} {t x : SymbolId} {cell : Cell} :
    (row.setIfInBounds t cell)[x]?.getD .error =
      if x = t ∧ t < row.size then cell else row[x]?.getD .error := by
  by_cases hx : x = t
  · by_cases hlt : t < row.size <;> simp [hx, hlt]
  · rw [Array.getElem?_setIfInBounds_ne (Ne.symm hx), if_neg fun h => hx h.1]

theorem Filled.set_right {row row' : Array Cell} (h : Filled row row') (t : SymbolId) {cell : Cell}
    (hne : cell ≠ .error) : Filled row (row'.setIfInBounds t cell) := by
  intro x hx
  rw [getD_setIfInBounds]
  split
  · exact hne
  · exact h x hx

theorem Filled.set {row row' : Array Cell} (h : Filled row row') (hsize : row.size = row'.size)
    (t : SymbolId) {cell cell' : Cell} (hne : cell' ≠ .error) :
    Filled (row.setIfInBounds t cell) (row'.setIfInBounds t cell') := by
  intro x hx
  rw [getD_setIfInBounds] at hx ⊢
  rw [hsize] at hx
  split
  · exact hne
  · next hxt => exact h x (by rwa [if_neg hxt] at hx)

/-- What is reported in the row with fewer actions is reported in the other one. -/
theorem Filled.length_conflict_le {row row' : Array Cell} (h : Filled row row') {t : SymbolId}
    {candidate cell cell' : Cell} {conflict conflict' : Option Conflict}
    (hc : compete q t (row[t]?.getD .error) candidate = .ok (cell, conflict))
    (hc' : compete q t (row'[t]?.getD .error) candidate = .ok (cell', conflict')) :
    conflict.toList.length ≤ conflict'.toList.length := by
  rw [length_conflict_of_compete hc, length_conflict_of_compete hc']
  split
  · exact Nat.zero_le _
  · next hne => rw [if_neg (h t hne)]

/-- **Fewer candidates make no more conflicts** in a row with fewer actions. -/
theorem length_le_of_installAll {candidates candidates' : List Candidate}
    {row row' row₁ row₁' : Array Cell} {conflicts conflicts' : List Conflict}
    (hsub : candidates.Sublist candidates') (hsize : row.size = row'.size)
    (hfilled : Filled row row') (hne : ∀ t, (t, Cell.error) ∉ candidates')
    (h : installAll q candidates row = .ok (row₁, conflicts))
    (h' : installAll q candidates' row' = .ok (row₁', conflicts')) :
    conflicts.length ≤ conflicts'.length := by
  induction hsub generalizing row row' row₁ row₁' conflicts conflicts' with
  | slnil =>
    obtain ⟨-, rfl⟩ := Prod.mk.inj (Except.ok.inj h)
    exact Nat.zero_le _
  | @cons rest rest' head _ ih =>
    obtain ⟨cell, conflict, found, hcell, hrest, rfl⟩ := exists_of_installAll_cons h'
    have hcandidate : head.2 ≠ .error := fun h₀ => hne head.1 (h₀ ▸ List.mem_cons_self)
    have hle := ih (hsize.trans Array.size_setIfInBounds.symm)
      (hfilled.set_right head.1 (cell_ne_error_of_compete hcell hcandidate))
      (fun x hx => hne x (List.mem_cons_of_mem _ hx)) h hrest
    rw [List.length_append]
    exact Nat.le_add_left_of_le hle
  | @cons_cons rest rest' head _ ih =>
    obtain ⟨cell, conflict, found, hcell, hrest, rfl⟩ := exists_of_installAll_cons h
    obtain ⟨cell', conflict', found', hcell', hrest', rfl⟩ := exists_of_installAll_cons h'
    have hcandidate : head.2 ≠ .error := fun h₀ => hne head.1 (h₀ ▸ List.mem_cons_self)
    have hle := ih (by rw [Array.size_setIfInBounds, Array.size_setIfInBounds, hsize])
      (hfilled.set hsize head.1 (cell_ne_error_of_compete hcell' hcandidate))
      (fun x hx => hne x (List.mem_cons_of_mem _ hx)) hrest hrest'
    rw [List.length_append, List.length_append]
    exact Nat.add_le_add (hfilled.length_conflict_le hcell hcell') hle

/-- More lookaheads make more candidates, in the same order. -/
theorem candidates_sublist (hl : lookaheads.Within lookaheads') (state : State) :
    (candidates rules lookaheads q state).Sublist (candidates rules lookaheads' q state) := by
  refine List.Sublist.flatMap_right _ fun i _ => ?_
  unfold candidatesOf
  split
  · exact .refl _
  cases hs : lookaheads q i.rule with
  | none => exact List.nil_sublist _
  | some s =>
    cases hs' : lookaheads' q i.rule with
    | none =>
      have hempty : s.toList = [] := List.eq_nil_iff_forall_not_mem.2 fun t ht => by
        obtain ⟨s', h, -⟩ := hl q i.rule s hs t ((SymbolSet.mem_toList s t).1 ht)
        exact nomatch hs'.symm.trans h
      simp [hempty]
    | some s' =>
      refine (SymbolSet.toList_sublist fun t ht => ?_).map _
      obtain ⟨s₁, h, ht⟩ := hl q i.rule s hs t ht
      exact Option.some.inj (hs'.symm.trans h) ▸ ht

/-- **More lookaheads make no fewer conflicts.** -/
theorem length_le_of_completeRows (hl : lookaheads.Within lookaheads') {states : List State}
    {rows rows₁ rows₁' : List (Array Cell)} {conflicts conflicts' : List Conflict}
    (h : completeRows rules lookaheads q states rows = .ok (rows₁, conflicts))
    (h' : completeRows rules lookaheads' q states rows = .ok (rows₁', conflicts')) :
    conflicts.length ≤ conflicts'.length := by
  induction states generalizing q rows rows₁ rows₁' conflicts conflicts' with
  | nil =>
    obtain ⟨-, rfl⟩ := Prod.mk.inj (Except.ok.inj h)
    exact Nat.zero_le _
  | cons state states ih =>
    cases rows with
    | nil =>
      obtain ⟨-, rfl⟩ := Prod.mk.inj (Except.ok.inj h)
      exact Nat.zero_le _
    | cons row rows =>
      obtain ⟨row₂, found, rows₂, rest, hrow, hrows, -, rfl⟩ := exists_of_completeRows_cons h
      obtain ⟨row₂', found', rows₂', rest', hrow', hrows', -, rfl⟩ := exists_of_completeRows_cons h'
      rw [List.length_append, List.length_append]
      exact Nat.add_le_add (length_le_of_installAll (candidates_sublist hl state) rfl
        (fun _ => id) error_not_mem_candidates hrow hrow') (ih hrows hrows')

end Completion

/-! ## Runs -/

namespace Table

open ShiftReduce.Parser

/-- A table says what another one does wherever it does not reject. -/
structure Refines (t t' : Table) : Prop where
  cell {q : StateId} {x : SymbolId} (hne : t.cell q x ≠ .error) : t.cell q x = t'.cell q x
  rule? : t.rule? = t'.rule?
  terminal? : t.terminal? = t'.terminal?

variable {ε : Type} {t t' : Table}

theorem Refines.read_eq (h : t.Refines t') (input : Input ε) : input.read t = input.read t' := by
  unfold Input.read
  rw [h.terminal?]

theorem Refines.initial_eq (h : t.Refines t') (tokens : List (Except ε Token)) :
    initial t tokens = initial t' tokens := by
  unfold initial
  rw [h.read_eq]

/-- A reduction that does not fail has looked up a goto. -/
theorem Refines.reduce_eq (h : t.Refines t') {r : RuleId} {c : Parser.Config ε} {ls : List Lookup}
    {outcome : Outcome ε} (hr : Parser.reduce t r c = (ls, outcome))
    (hne : ∀ e, outcome ≠ .failed e) : Parser.reduce t' r c = (ls, outcome) := by
  unfold Parser.reduce at hr ⊢
  rw [← h.rule?]
  split at hr
  · exact absurd (Prod.mk.inj hr).2.symm (hne _)
  next rule hrule =>
  split at hr
  · exact absurd (Prod.mk.inj hr).2.symm (hne _)
  next top below hdrop =>
  dsimp only at hr ⊢
  split at hr
  · exact absurd (Prod.mk.inj hr).2.symm (hne _)
  next node haction =>
  have hcell : t.cell top.state rule.lhs = t'.cell top.state rule.lhs := by
    refine h.cell fun herror => ?_
    rw [herror] at hr
    exact hne _ (Prod.mk.inj hr).2.symm
  rwa [hcell] at hr

/-- **A step that does not fail is the same on both tables.** -/
theorem Refines.step_eq (h : t.Refines t') {c : Parser.Config ε} {ls : List Lookup}
    {outcome : Outcome ε} (hs : step t c = (ls, outcome)) (hne : ∀ e, outcome ≠ .failed e) :
    step t' c = (ls, outcome) := by
  unfold step at hs ⊢
  split at hs
  · exact absurd (Prod.mk.inj hs).2.symm (hne _)
  next top below hstack =>
  dsimp only at hs ⊢
  have hcell : t.cell top.state c.lookahead.terminal = t'.cell top.state c.lookahead.terminal := by
    refine h.cell fun herror => ?_
    rw [herror] at hs
    exact hne _ (Prod.mk.inj hs).2.symm
  rw [← hcell]
  split at hs
  · next q hq =>
    rw [← hs]
    unfold Parser.shift
    rw [h.read_eq]
  · next r hr =>
    obtain ⟨rfl, rfl⟩ := Prod.mk.inj hs
    have hreduce : Parser.reduce t' r c = Parser.reduce t r c := h.reduce_eq (Prod.ext rfl rfl) hne
    rw [hreduce]
  · exact hs
  · exact absurd (Prod.mk.inj hs).2.symm (hne _)
  · exact absurd (Prod.mk.inj hs).2.symm (hne _)

theorem Refines.runFrom_eq (h : t.Refines t') {fuel : Nat} {c : Parser.Config ε}
    {lookups lookups' : List Lookup} {node : Ast}
    (hr : runFrom t fuel c lookups = (lookups', some (.ok node))) :
    runFrom t' fuel c lookups = (lookups', some (.ok node)) := by
  induction fuel generalizing c lookups with
  | zero => exact nomatch (Prod.mk.inj hr).2
  | succ fuel ih =>
    rw [runFrom] at hr ⊢
    cases hs : step t c with
    | mk ls outcome =>
    rw [hs] at hr
    cases outcome with
    | next c' =>
      rw [h.step_eq hs (fun _ => nofun)]
      exact ih hr
    | accepted node' =>
      rw [h.step_eq hs (fun _ => nofun)]
      exact hr
    | failed e => exact nomatch Option.some.inj (Prod.mk.inj hr).2

/-- **A run that accepts is the same on both tables.** -/
theorem Refines.run_eq (h : t.Refines t') {tokens : List (Except ε Token)} {fuel : Nat}
    {lookups : List Lookup} {node : Ast} (hr : run t fuel tokens = (lookups, some (.ok node))) :
    run t' fuel tokens = (lookups, some (.ok node)) := by
  unfold run at hr ⊢
  rw [← h.initial_eq]
  split at hr
  · exact nomatch Option.some.inj (Prod.mk.inj hr).2
  next c hc =>
  obtain ⟨rfl, hanswer⟩ := Prod.mk.inj hr
  rw [h.runFrom_eq (Prod.ext rfl hanswer)]

end Table

/-! ## Automata -/

namespace Automaton

open ShiftReduce.Parser Completion

/-- An automaton of the same states as another one, which asks for fewer reductions. -/
structure Refines (a b : Automaton) : Prop where
  symbols : a.symbols = b.symbols
  rules : a.rules = b.rules
  states : a.states = b.states
  finalState : a.finalState = b.finalState
  /-- Completed items have lookaheads in both, and more in the other one. -/
  lookaheads {q : StateId} {state : State} (hs : a.states[q]? = some state) {i : Item}
    (hi : i ∈ state.completed a.rules) : ∃ s s', a.lookaheads q i.rule = some s ∧
      b.lookaheads q i.rule = some s' ∧ ∀ t ∈ s, t ∈ s'
  conflicts : a.conflicts.length ≤ b.conflicts.length
  conflicts_eq_nil (hb : b.conflicts = []) : a.conflicts = []
  cell (hb : b.conflicts = []) {q : StateId} {x : SymbolId} (hne : a.table.cell q x ≠ .error) :
    a.table.cell q x = b.table.cell q x
  /-- What the one accepts, the other one accepts with the same tree. -/
  run (hb : b.conflicts = []) {ε : Type} {tokens : List (Except ε Token)} {fuel : Nat}
    {lookups : List Lookup} {node : Ast}
    (h : run a.table fuel tokens = (lookups, some (.ok node))) :
    run b.table fuel tokens = (lookups, some (.ok node))

variable {registry : Registry} {config config' : Config} {source : String} {a b : Automaton}
  {c : Collection} {lookaheads lookaheads' : Lookaheads} {result result' : Result}
  {accept : SymbolId}

/-- **A table without conflicts says what a table of fewer lookaheads says**, wherever that one does
not reject. -/
theorem Parts.cell_eq (hp : Parts config registry source a c lookaheads result)
    (hp' : Parts config' registry source b c lookaheads' result') (hsymbols : a.symbols = b.symbols)
    (hrules : a.rules = b.rules) (hreserves : a.symbols.Reserves)
    (ha : Augmented a.rules accept a.grammar.start a.symbols.size a.symbols.terminalCount)
    (hl : lookaheads.Within lookaheads') (hb : b.conflicts = []) {q : StateId} {x : SymbolId}
    (hne : a.table.cell q x ≠ .error) : a.table.cell q x = b.table.cell q x := by
  have hc := canonical_of_augmented ha hp.canonical
  have hend := hreserves.endOfInput_lt
  have hcompleted := completed_of_complete hc hp.complete
  have hcompleted' := completed_of_complete (hrules ▸ hc) hp'.complete
  have hcell : a.table.cell q x = result.table.cell q x := by rw [← hp.cells]; rfl
  have hcell' : b.table.cell q x = result'.table.cell q x := by rw [← hp'.cells]; rfl
  rw [← hsymbols, ← hrules] at hcompleted'
  rw [hcell] at hne ⊢
  rw [hcell']
  rcases hcompleted.origin hne with hedge | ⟨state, hs, hmem⟩
  · -- edges are kept by both
    obtain ⟨q', he, heq⟩ := (cell_table_iff ha hc hne).1 hedge
    rw [heq] at hedge ⊢
    split at hedge
    · rw [if_pos ‹_›, hcompleted'.shift hedge]
    · rw [if_neg ‹_›, hcompleted'.goto hedge]
  · have hterminal := terminal_of_lookaheadsOf hend ha hc hp.found
    obtain ⟨hx, -⟩ := of_mem_candidates hend hterminal hmem
    have hlt : x < (analyze a.symbols a.rules).symbolCount :=
      symbolCount_analyze ▸ Nat.lt_of_lt_of_le hx a.symbols.terminalCount_le
    have hconflicts : result'.conflicts = [] := hp'.conflicts ▸ hb
    exact (hcompleted'.gets hconflicts hs hlt ((candidates_sublist hl state).subset hmem)).symm

/-- The automaton with other lookaheads and the table that is completed with these. -/
def withLookaheads (a : Automaton) (mode : LookaheadMode) (lookaheads : Lookaheads)
    (result : Result) : Automaton :=
  { a with mode, lookaheads, cells := result.table, conflicts := result.conflicts }

/-- Where there are LALR lookaheads, a table can be completed with SLR lookaheads too. -/
theorem Parts.exists_slr {limits : Limits}
    (hp : Parts ⟨limits, .lalr⟩ registry source a c lookaheads result)
    (hreserves : a.symbols.Reserves)
    (ha : Augmented a.rules accept a.grammar.start a.symbols.size a.symbols.terminalCount) :
    ∃ result', result'.finalState = result.finalState ∧
      Parts ⟨limits, .slr⟩ registry source
        (a.withLookaheads .slr (.slr a.rules (analyze a.symbols a.rules)) result') c
        (.slr a.rules (analyze a.symbols a.rules)) result' := by
  have hc := canonical_of_augmented ha hp.canonical
  have hend := hreserves.endOfInput_lt
  have hfound : lookaheadsOf .slr a.symbols a.rules (analyze a.symbols a.rules) c limits =
    .ok (.slr a.rules (analyze a.symbols a.rules)) := rfl
  obtain ⟨result', hresult', -⟩ :=
    exists_complete hend ha hc (terminal_of_lookaheadsOf hend ha hc hfound)
  obtain ⟨-, hfirst⟩ := exists_of_complete hp.complete
  obtain ⟨-, hfirst'⟩ := exists_of_complete hresult'
  exact ⟨result', Option.some.inj (hfirst'.symm.trans hfirst),
    hp.read, hp.canonical, hfound, hresult', hp.states, rfl, rfl, rfl⟩

/-- A completed item has LALR lookaheads, which are among its SLR lookaheads. -/
theorem Parts.exists_lookaheads {limits : Limits}
    (hp : Parts ⟨limits, .lalr⟩ registry source a c lookaheads result)
    (ha : Augmented a.rules accept a.grammar.start a.symbols.size a.symbols.terminalCount)
    {q : StateId} {state : State} (hs : c.states[q]? = some state) {i : Item}
    (hi : i ∈ state.completed a.rules) : ∃ s s', lookaheads q i.rule = some s ∧
      Lookaheads.slr a.rules (analyze a.symbols a.rules) q i.rule = some s' ∧ ∀ t ∈ s, t ∈ s' := by
  have hc := canonical_of_augmented ha hp.canonical
  obtain ⟨hi, rule, hr, hdot⟩ := State.mem_completed.1 hi
  have hholds : c.Holds q ⟨i.rule, rule.rhs.length⟩ := ⟨state, hs, hdot ▸ hi⟩
  obtain ⟨g, hlabels, -, hlalr⟩ := Lookaheads.exists_labels_of_lalr hc ha hp.found
  obtain ⟨s, hlookaheads⟩ := Lookaheads.exists_lalr hc ha hlabels hr hholds
  rw [← hlalr] at hlookaheads
  obtain ⟨s', hs'⟩ : ∃ s', Lookaheads.slr a.rules (analyze a.symbols a.rules) q i.rule = some s' :=
    ⟨_, congrArg (Option.map _) hr⟩
  refine ⟨s, s', hlookaheads, hs', fun t ht => ?_⟩
  obtain ⟨s₁, hs₁, ht⟩ := Lookaheads.within_slr hc ha hp.found q i.rule s hlookaheads t ht
  exact Option.some.inj (hs₁.symm.trans hs') ▸ ht

/-- **LALR(1) refines SLR(1)**: where an LALR automaton is generated, so is the SLR automaton, and
the former refines it. -/
theorem exists_refines (hmade : registry.Made) {limits : Limits}
    (h : generate ⟨limits, .lalr⟩ registry source = .ok a) :
    ∃ b, generate ⟨limits, .slr⟩ registry source = .ok b ∧ a.Refines b := by
  obtain ⟨hsize, -, c, lookaheads, result, hp, hfinal⟩ := generate_eq_ok_iff.1 h
  obtain ⟨hreserves, accept, ha⟩ := reserves_of_readRules hmade hp.read
  obtain ⟨result', hfinal', hp'⟩ := hp.exists_slr hreserves ha
  have hwithin := Lookaheads.within_slr (canonical_of_augmented ha hp.canonical) ha hp.found
  obtain ⟨⟨rows, hrows, -⟩, -⟩ := exists_of_complete hp.complete
  obtain ⟨⟨rows', hrows', -⟩, -⟩ := exists_of_complete hp'.complete
  have hlength : a.conflicts.length ≤ result'.conflicts.length :=
    hp.conflicts ▸ length_le_of_completeRows hwithin hrows hrows'
  have hrefines (hb : result'.conflicts = []) :
      a.table.Refines (a.withLookaheads .slr _ result').table :=
    ⟨hp.cell_eq hp' rfl rfl hreserves ha hwithin hb, rfl, rfl⟩
  refine ⟨a.withLookaheads .slr _ result', generate_eq_ok_iff.2
    ⟨hsize, rfl, c, _, result', hp', hfinal.trans hfinal'.symm⟩, ?_⟩
  exact {
    symbols := rfl
    rules := rfl
    states := rfl
    finalState := rfl
    lookaheads := fun hs _ hi =>
      hp.lookaheads_eq ▸ hp.exists_lookaheads ha (hp.states ▸ hs) hi
    conflicts := hlength
    conflicts_eq_nil := fun hb =>
      List.length_eq_zero_iff.1 (Nat.le_zero.1 (List.length_eq_zero_iff.2 hb ▸ hlength))
    cell := fun hb _ _ => (hrefines hb).cell
    run := fun hb => (hrefines hb).run_eq }

/-- Pointers on either side of an assignment: the SLR automaton has a conflict that the LALR
automaton has not. -/
theorem exists_refines_pointers : ∃ a b, Registry.standard.Made ∧
    generate {} .standard "s = l '=' r | r; l = '*' r | IDENT; r = l;" = .ok a ∧
    generate { mode := .slr } .standard "s = l '=' r | r; l = '*' r | IDENT; r = l;" = .ok b ∧
    a.conflicts = [] ∧ b.conflicts.length = 1 ∧ a.Refines b := by
  have hok : (generate {} .standard "s = l '=' r | r; l = '*' r | IDENT; r = l;").toOption.any
      (fun a => a.conflicts = []) = true := by
    decide +kernel
  have hok' : (generate { mode := .slr } .standard
      "s = l '=' r | r; l = '*' r | IDENT; r = l;").toOption.any
      (fun b => b.conflicts.length = 1) = true := by
    decide +kernel
  obtain ⟨a, ha, hconflicts⟩ := Except.exists_of_any_toOption hok
  obtain ⟨b', hb', hlength⟩ := Except.exists_of_any_toOption hok'
  obtain ⟨b, hb, hrefines⟩ := exists_refines .standard ha
  obtain rfl := Except.ok.inj (hb'.symm.trans hb)
  exact ⟨a, b', .standard, ha, hb', of_decide_eq_true hconflicts, of_decide_eq_true hlength,
    hrefines⟩

end Automaton
end ShiftReduce

import ShiftReduce.Proofs.Automaton

/-!
# Proofs/Defect — the construction of an automaton meets no defect

The construction stops at four states of affairs that it takes for impossible (`Grammar.Defect`): a
missing transition, a missing completed item, a goto in the column of a terminal, and no final
state.  The canonical collection rules out each of them: a rule can be walked from wherever it
begins, its walk ends at its completed item, and only terminals are asked for in the rows of a
table.  What is left are the errors that a text, a registry or a limit is answered with
(`flawless_generate`).
-/

namespace ShiftReduce

open ShiftReduce.Derivation Collection

/-! ## Computations without defects -/

namespace Grammar

variable {α β σ : Type}

/-- A computation that may fail, but for no defect. -/
def Flawless (m : Except Error α) : Prop := ∀ d, m ≠ .error (.defect d)

theorem flawless_ok (a : α) : Flawless (.ok a) := fun _ => nofun

theorem flawless_error {e : Error} (h : ∀ d, e ≠ .defect d) :
    Flawless (.error e : Except Error α) := fun d he => h d (Except.error.inj he)

/-- Computations without defects are without them one after the other. -/
theorem Flawless.bind {m : Except Error α} {f : α → Except Error β} (hm : Flawless m)
    (hf : ∀ a, m = .ok a → Flawless (f a)) : Flawless (m >>= f) := by
  intro d h
  rcases Except.bind_eq_error h with h | ⟨a, ha, h⟩
  · exact hm d h
  · exact hf a ha d h

/-- So are those over a list, if each of them is. -/
theorem flawless_mapM {f : α → Except Error β} {l : List α} (h : ∀ a ∈ l, Flawless (f a)) :
    Flawless (l.mapM f) := by
  induction l with
  | nil => exact flawless_ok []
  | cons a l ih =>
    rw [List.mapM_cons]
    exact (h a List.mem_cons_self).bind fun _ _ =>
      (ih fun a ha => h a (List.mem_cons_of_mem _ ha)).bind fun _ _ => flawless_ok _

/-- And those that hand a state on, whatever the state is. -/
theorem flawless_foldlM {f : σ → α → Except Error σ} {l : List α} {s : σ}
    (h : ∀ s, ∀ a ∈ l, Flawless (f s a)) : Flawless (l.foldlM f s) := by
  induction l generalizing s with
  | nil => exact flawless_ok s
  | cons a l ih =>
    rw [List.foldlM_cons]
    exact (h s a List.mem_cons_self).bind fun _ _ =>
      ih fun s a ha => h s a (List.mem_cons_of_mem _ ha)

end Grammar

open Grammar

namespace Registering

variable {α β : Type}

/-- A computation that keeps registries made, and may fail, but for no defect. -/
def Careful (m : Registering α) : Prop :=
  ∀ r, r.Made → (m.runOn r).2.Made ∧ Flawless (m.runOn r).1

theorem careful_pure (a : α) : Careful (pure a) := fun _ hr => ⟨hr, flawless_ok a⟩

theorem careful_throw {e : Error} (h : ∀ d, e ≠ .defect d) :
    Careful (throw e : Registering α) := fun _ hr => ⟨hr, flawless_error h⟩

/-- Looking at the registry changes nothing. -/
theorem careful_get : Careful (get : Registering Registry) := fun r hr => ⟨hr, flawless_ok r⟩

/-- Each computation is handed a registry that was made, so each leaves one. -/
theorem Careful.bind {m : Registering α} {f : α → Registering β} (hm : Careful m)
    (hf : ∀ a, Careful (f a)) : Careful (m >>= f) := by
  intro r hr
  obtain ⟨hmade, hflawless⟩ := hm r hr
  have hbind : (m >>= f).runOn r = match m.runOn r with
      | (.ok a, r') => (f a).runOn r'
      | (.error e, r') => (.error e, r') := by
    change ExceptT.bindCont f (m.runOn r).1 (m.runOn r).2 = _
    rcases m.runOn r with ⟨e | a, r'⟩ <;> rfl
  rw [hbind]
  rcases hrun : m.runOn r with ⟨e | a, r'⟩
  · rw [hrun] at hmade hflawless
    exact ⟨hmade, fun d h => hflawless d (congrArg _ (Except.error.inj h))⟩
  · rw [hrun] at hmade
    exact hf a r' hmade

/-- A registration fails with an error of the registry only. -/
theorem careful_register {f : Registry → Except Registry.Error α × Registry}
    (h : ∀ r, r.Made → (f r).2.Made) : Careful (register f) := by
  intro r hr
  have hmade := h r hr
  simp only [runOn, ExceptT.run, register]
  rcases hf : f r with ⟨e | a, r'⟩ <;> rw [hf] at hmade
  · exact ⟨hmade, flawless_error fun _ => Grammar.Error.noConfusion⟩
  · exact ⟨hmade, flawless_ok a⟩

theorem careful_forM {f : α → Registering PUnit} (h : ∀ a, Careful (f a)) (l : List α) :
    Careful (l.forM f) := by
  induction l with
  | nil => exact careful_pure _
  | cons a l ih => exact (h a).bind fun _ => ih

theorem careful_mapM {f : α → Registering β} (h : ∀ a, Careful (f a)) (l : List α) :
    Careful (l.mapM f) := by
  induction l with
  | nil => exact careful_pure []
  | cons a l ih =>
    rw [List.mapM_cons]
    exact (h a).bind fun _ => ih.bind fun _ => careful_pure _

end Registering

/-! ## Reading a grammar text -/

namespace Grammar

open Registering

/-- A text that is not read has an error of its own, or of the registry. -/
theorem careful_parse (source : String) : Careful (parse source) := by
  unfold parse
  split
  · exact careful_throw fun _ => nofun
  · refine (careful_forM (fun body => ?_) _).bind fun _ => (careful_mapM (fun name => ?_) _).bind
      fun symbols => ?_
    · exact (careful_register fun r hr => hr.addReserved body).bind fun _ => careful_pure _
    · exact careful_register fun r hr => hr.addNonterminal name
    · split
      · exact careful_throw fun _ => nofun
      · exact careful_throw fun _ => nofun
      · exact careful_pure _

/-- An action that does not fit its alternative is an error of the text. -/
theorem flawless_action? (a : Alternative) : Flawless a.action? := by
  unfold Alternative.action?
  split
  · exact flawless_ok _
  · intro d h
    obtain ⟨problem, -, he⟩ := Except.exists_of_mapError_eq_error h
    exact nomatch he

theorem flawless_terminalOf (symbols : Registry) (location : Location) (name : String) :
    Flawless (terminalOf symbols location name) := by
  unfold terminalOf
  split
  · exact flawless_ok _
  · exact flawless_error fun _ => nofun

/-- So is an element that no rule and no terminal matches. -/
theorem flawless_symbols? (g : Grammar) (symbols : Registry) (e : Element) :
    Flawless (e.symbols? g symbols) := by
  have one (name : String) : Flawless ((terminalOf symbols e.location name).map ([·])) := by
    intro d h
    cases ht : terminalOf symbols e.location name with
    | error e' =>
      rw [ht] at h
      refine flawless_terminalOf symbols e.location name d (ht.trans ?_)
      exact congrArg _ (Except.error.inj h)
    | ok x =>
      rw [ht] at h
      exact nomatch h
  unfold Element.symbols?
  split
  · split
    · exact flawless_ok _
    · exact flawless_error fun _ => nofun
  · exact one _
  · exact one _
  · exact flawless_mapM fun name _ => flawless_terminalOf symbols e.location name

/-- An alternative can exceed a limit, by its length or by the number of its rules. -/
theorem flawless_addAlternative (g : Grammar) (symbols : Registry) (limits : Limits)
    (lhs : SymbolId) (rules : Array ShiftReduce.Rule) (a : Alternative) :
    Flawless (addAlternative g symbols limits lhs rules a) := by
  refine (flawless_action? a).bind fun action _ =>
    (flawless_mapM fun e _ => flawless_symbols? g symbols e).bind fun matched _ => ?_
  dsimp only
  split
  · exact flawless_error fun _ => nofun
  · split
    · exact flawless_error fun _ => nofun
    · exact flawless_ok _

theorem flawless_rulesOver (g : Grammar) (symbols : Registry) (limits : Limits)
    (accept : SymbolId) : Flawless (g.rulesOver symbols limits accept) := by
  refine (flawless_foldlM fun rules rule _ => flawless_foldlM fun rules a _ =>
    flawless_addAlternative g symbols limits rule.lhs rules a).bind fun rules _ => ?_
  split
  · exact flawless_error fun _ => nofun
  · exact flawless_ok rules

theorem careful_flatten (g : Grammar) (limits : Limits) : Careful (g.flatten limits) := by
  refine (careful_register fun r hr => hr.addNonterminal augmentedStart).bind fun accept =>
    careful_get.bind fun symbols => ?_
  split
  · exact careful_pure _
  · next e he =>
    refine careful_throw ?_
    rintro d rfl
    exact flawless_rulesOver g symbols limits accept d he

end Grammar

namespace Automaton

open Registering

/-- **Reading a text keeps the registry made**, also if the text is rejected. -/
theorem careful_readRules (limits : Limits) (source : String) :
    Careful (readRules limits source) :=
  (careful_parse source).bind fun g => (careful_flatten g limits).bind fun _ => careful_pure _

end Automaton

/-! ## The collection -/

namespace Collection

variable (rules : Array Rule) (a : Analysis) (limits : Limits)

/-- A state that there is no room for exceeds a limit. -/
theorem flawless_stateOf (states : Array State) (kernel : List Item) :
    Flawless (stateOf rules a limits states kernel) := by
  unfold stateOf
  split
  · exact flawless_ok _
  · split
    · exact flawless_ok _
    · exact flawless_error fun _ => nofun

theorem flawless_follow (state : State) (xs : List SymbolId) (states : Array State) :
    Flawless (follow rules a limits state xs states) := by
  induction xs generalizing states with
  | nil => exact flawless_ok _
  | cons x xs ih =>
    exact (flawless_stateOf rules a limits states _).bind fun _ _ =>
      (ih _).bind fun _ _ => flawless_ok _

theorem flawless_complete (n : Nat) (c : Collection) :
    Flawless (complete rules a limits n c) := by
  induction n generalizing c with
  | zero => exact flawless_ok c
  | succ n ih =>
    rw [complete]
    split
    · exact flawless_ok c
    · exact (flawless_follow rules a limits _ _ _).bind fun _ _ => ih _

theorem flawless_canonical : Flawless (canonical rules a limits) :=
  (flawless_stateOf rules a limits _ _).bind fun _ _ => flawless_complete rules a limits _ _

end Collection

/-! ## The labelled grammar -/

namespace LabelledGrammar

variable {rules : Array Rule} {c : Collection} {a : Analysis}
  {accept start symbolCount terminalCount base : Nat} {limits : Limits} {labels : Numbering Label}

/-- So does a label that there is no room for. -/
theorem flawless_number (label : Label) : Flawless (number base limits label labels) := by
  unfold number
  split
  · exact flawless_ok _
  · dsimp only
    split
    · exact flawless_error fun _ => nofun
    · split
      · exact flawless_error fun _ => nofun
      · exact flawless_ok _

/-- **What can be walked can be labelled**, unless there are too many labels. -/
theorem flawless_walk (hc : Canonical rules c)
    (hcount : ∀ {q x q'}, c.Edge q x q' → x < a.symbolCount) {q target : StateId}
    {xs : List SymbolId} (hw : c.Walk q xs target) :
    Flawless (walk (c.table a) terminalCount base limits q xs labels) := by
  induction hw generalizing labels with
  | nil q => exact flawless_ok _
  | cons he _ ih =>
    rw [walk, stepFrom_eq_ok hc hcount he]
    refine (flawless_ok _).bind fun next hnext => ?_
    obtain rfl := Except.ok.inj hnext
    dsimp only
    split
    · exact (flawless_ok _).bind fun _ _ => ih.bind fun _ _ => flawless_ok _
    · exact (flawless_number _).bind fun _ _ => ih.bind fun _ _ => flawless_ok _

/-- A walk finds its transitions, since the rule begins in the state that it is walked from. -/
theorem flawless_labelRule (hc : Canonical rules c)
    (hcount : ∀ {q x q'}, c.Edge q x q' → x < a.symbolCount) {q : StateId} {r : RuleId}
    {rule : Rule} (hr : rules[r]? = some rule) (hq : c.Holds q ⟨r, 0⟩) :
    Flawless (labelRule (c.table a) terminalCount base limits q r rule labels) := by
  obtain ⟨target, hw, -⟩ := hc.exists_walk hr [] (List.append_nil _).symm hq
  refine (flawless_walk hc hcount hw).bind fun _ _ => ?_
  dsimp only
  split
  · exact (flawless_ok _).bind fun _ _ => flawless_ok _
  · next h₀ =>
    obtain ⟨next, he⟩ := hc.exists_edge_lhs hq hr h₀
    rw [stepFrom_eq_ok hc hcount he]
    exact ((flawless_ok _).bind fun _ _ => flawless_number _).bind fun _ _ => flawless_ok _

/-- Only rules that begin in a state are walked from it. -/
theorem flawless_build (hc : Canonical rules c)
    (hcount : ∀ {q x q'}, c.Edge q x q' → x < a.symbolCount) (symbols : Registry) :
    Flawless (build rules c a symbols limits) := by
  refine Flawless.bind (flawless_foldlM ?_) fun _ _ => flawless_ok _
  rintro ⟨done, count, labels⟩ ⟨q, r, rule⟩ hb
  obtain ⟨hq, hr⟩ := mem_begun.1 hb
  refine (flawless_labelRule hc hcount hr hq).bind fun _ _ => ?_
  dsimp only
  split
  · exact flawless_error fun _ => nofun
  · exact flawless_ok _

end LabelledGrammar

/-! ## Lookaheads -/

/-- Lookaheads that are terminals. -/
def Lookaheads.Terminal (lookaheads : Lookaheads) (terminalCount : Nat) : Prop :=
  ∀ q r s, lookaheads q r = some s → ∀ t ∈ s, t < terminalCount

namespace Automaton

variable {symbols : Registry} {rules : Array Rule} {c : Collection} {accept start : SymbolId}
  {limits : Limits} {mode : LookaheadMode}

/-- A labelled grammar that is built has its lookaheads. -/
theorem lalrOf_of_build (ha : Augmented rules accept start symbols.size symbols.terminalCount)
    (hc : Canonical rules c) {g : LabelledGrammar}
    (h : LabelledGrammar.build rules c (analyze symbols rules) symbols limits = .ok g) :
    Lookaheads.lalrOf rules c g = .ok (.lalr g) := by
  obtain ⟨hlabels, -⟩ := LabelledGrammar.labels_of_build hc ha
    (fun he => symbolCount_analyze ▸ hc.lt_symbolCount_of_edge ha he) rfl h
  exact Lookaheads.lalrOf_eq_ok hc hlabels

/-- **Lookaheads are found**, unless there are too many labels or labelled rules. -/
theorem flawless_lookaheadsOf
    (ha : Augmented rules accept start symbols.size symbols.terminalCount)
    (hc : Canonical rules c) :
    Flawless (lookaheadsOf mode symbols rules (analyze symbols rules) c limits) := by
  have hcount {q q' : StateId} {x : SymbolId} (he : c.Edge q x q') :
      x < (analyze symbols rules).symbolCount :=
    symbolCount_analyze ▸ hc.lt_symbolCount_of_edge ha he
  cases mode with
  | slr => exact flawless_ok _
  | lalr =>
    refine (LabelledGrammar.flawless_build hc hcount symbols).bind fun g hg => ?_
    rw [lalrOf_of_build ha hc hg]
    exact flawless_ok _

/-- The lookaheads of either mode are terminals. -/
theorem terminal_of_lookaheadsOf (hend : SymbolId.endOfInput < symbols.terminalCount)
    (ha : Augmented rules accept start symbols.size symbols.terminalCount) (hc : Canonical rules c)
    {lookaheads : Lookaheads}
    (h : lookaheadsOf mode symbols rules (analyze symbols rules) c limits = .ok lookaheads) :
    lookaheads.Terminal symbols.terminalCount := by
  intro q r s hs t ht
  cases mode with
  | slr =>
    obtain rfl := Except.ok.inj h
    obtain ⟨rule, -, rfl⟩ := Option.map_eq_some_iff.1 hs
    rw [SymbolSet.mem_unionExcept] at ht
    obtain ⟨hfollow, -⟩ := ht.resolve_left (SymbolSet.not_mem_empty t)
    exact ((Analysis.mem_followSet_iff (within_of_augmented ha) ha.le_symbolCount).1
      hfollow).1.lt hend
  | lalr =>
    obtain ⟨g, hg, h⟩ := Except.bind_eq_ok h
    obtain ⟨hlabels, hanalysis⟩ := LabelledGrammar.labels_of_build hc ha
      (fun he => symbolCount_analyze ▸ hc.lt_symbolCount_of_edge ha he) rfl hg
    rw [Lookaheads.lalrOf_eq_ok hc hlabels] at h
    obtain rfl := Except.ok.inj h
    obtain ⟨⟨p, rule, -, -, -, hf⟩, -⟩ :=
      (Lookaheads.mem_lalr_iff hc ha hlabels hanalysis).1 ⟨s, hs, ht⟩
    exact hf.lt hend

end Automaton

/-! ## Completing the table -/

namespace Completion

variable {q : StateId} {rules : Array Rule} {c : Collection} {a : Analysis}
  {lookaheads : Lookaheads} {accept start symbolCount terminalCount : Nat}

/-- The candidates of a state are for terminals, and are no gotos. -/
theorem of_mem_candidates (hend : SymbolId.endOfInput < terminalCount)
    (hl : lookaheads.Terminal terminalCount) {state : State} {t : SymbolId} {cell : Cell}
    (h : (t, cell) ∈ candidates rules lookaheads q state) :
    t < terminalCount ∧ ∀ p, cell ≠ .goto p := by
  rcases mem_candidates.1 h with ⟨rfl, rfl, -⟩ | ⟨i, -, -, rfl, set, hset, ht⟩
  · exact ⟨hend, fun _ => nofun⟩
  · exact ⟨hl q i.rule set hset t ht, fun _ => nofun⟩

/-- A candidate can be weighed against anything but a goto. -/
theorem exists_compete {t : SymbolId} {current : Cell} (candidate : Cell)
    (h : ∀ p, current ≠ .goto p) :
    ∃ cell conflict, compete q t current candidate = .ok (cell, conflict) := by
  cases current with
  | error => exact ⟨_, _, rfl⟩
  | shift p => exact ⟨_, _, rfl⟩
  | goto p => exact absurd rfl (h p)
  | reduce r =>
    unfold compete
    dsimp only
    split <;> exact ⟨_, _, rfl⟩
  | accept =>
    unfold compete
    dsimp only
    split <;> exact ⟨_, _, rfl⟩

/-- **Candidates can be installed in a row without gotos at their terminals.** -/
theorem exists_installAll {candidates : List Candidate} {row : Array Cell}
    (hrow : ∀ t < terminalCount, ∀ p, row[t]? ≠ some (.goto p))
    (hcandidates : ∀ t cell, (t, cell) ∈ candidates →
      t < terminalCount ∧ ∀ p, cell ≠ .goto p) :
    ∃ result, installAll q candidates row = .ok result := by
  induction candidates generalizing row with
  | nil => exact ⟨_, rfl⟩
  | cons head rest ih =>
    obtain ⟨t, candidate⟩ := head
    obtain ⟨ht, hcandidate⟩ := hcandidates t candidate List.mem_cons_self
    have hcurrent : ∀ p, row[t]?.getD .error ≠ .goto p := by
      intro p h
      cases hx : row[t]? with
      | none => rw [hx] at h; exact nomatch h
      | some cell =>
        rw [hx] at h
        exact hrow t ht p (hx.trans (congrArg some h))
    obtain ⟨cell, conflict, hcell⟩ := exists_compete (q := q) (t := t) candidate hcurrent
    have hnew : ∀ p, cell ≠ .goto p := by
      obtain ⟨⟨rfl, -⟩ | ⟨rfl, -⟩, -⟩ := of_compete hcell
      · exact hcandidate
      · exact hcurrent
    have hset : ∀ x < terminalCount, ∀ p, (row.setIfInBounds t cell)[x]? ≠ some (.goto p) := by
      intro x hx p h
      rw [Array.getElem?_setIfInBounds] at h
      split at h
      · split at h
        · exact hnew p (Option.some.inj h)
        · exact nomatch h
      · exact hrow x hx p h
    obtain ⟨⟨row', conflicts⟩, hrest⟩ :=
      ih hset fun x cell h => hcandidates x cell (List.mem_cons_of_mem _ h)
    refine ⟨(row', conflict.toList ++ conflicts), ?_⟩
    simp only [installAll, hcell, hrest, bind, Except.bind]

theorem exists_completeRows {states : List State} {rows : List (Array Cell)}
    (hend : SymbolId.endOfInput < terminalCount) (hl : lookaheads.Terminal terminalCount)
    (hrows : ∀ row ∈ rows, ∀ t < terminalCount, ∀ p, row[t]? ≠ some (.goto p)) :
    ∃ result, completeRows rules lookaheads q states rows = .ok result := by
  induction states generalizing q rows with
  | nil => exact ⟨_, rfl⟩
  | cons state states ih =>
    cases rows with
    | nil => exact ⟨_, rfl⟩
    | cons row rows =>
      obtain ⟨⟨row', found⟩, hrow⟩ := exists_installAll (q := q) (hrows row List.mem_cons_self)
        fun t cell (h : (t, cell) ∈ candidates rules lookaheads q state) =>
          of_mem_candidates hend hl h
      obtain ⟨⟨rows', conflicts⟩, hrest⟩ := ih (q := q + 1)
        fun row h => hrows row (List.mem_cons_of_mem _ h)
      refine ⟨(row' :: rows', found ++ conflicts), ?_⟩
      simp only [completeRows, hrow, hrest, bind, Except.bind]

/-- **A table without gotos at terminals can be completed** if one of its states accepts. -/
theorem exists_complete {states : Array State} {table : CellTable}
    (hend : SymbolId.endOfInput < terminalCount) (hl : lookaheads.Terminal terminalCount)
    (hrows : ∀ row ∈ table.rows, ∀ t < terminalCount, ∀ p, row[t]? ≠ some (.goto p))
    (haccepted : ∃ s ∈ states, Item.accepted ∈ s.completed rules) :
    ∃ result, complete rules states lookaheads table = .ok result ∧
      result.finalState < states.size := by
  obtain ⟨⟨rows, conflicts⟩, hcompleted⟩ : ∃ result, completeRows rules lookaheads 0
      states.toList table.rows.toList = .ok result :=
    exists_completeRows hend hl fun row hrow => hrows row (Array.mem_toList_iff.1 hrow)
  have hsome : (states.findIdx? fun s =>
      (s.completed rules).contains Item.accepted).isSome = true := by
    obtain ⟨s, hs, hi⟩ := haccepted
    rw [Array.findIdx?_isSome, Array.any_eq_true']
    exact ⟨s, hs, List.elem_eq_true_of_mem hi⟩
  obtain ⟨final, hfinal⟩ := Option.isSome_iff_exists.1 hsome
  obtain ⟨hlt, -⟩ := Array.findIdx?_eq_some_iff_getElem.1 hfinal
  refine ⟨⟨⟨table.width, rows.toArray⟩, final, conflicts⟩, ?_, hlt⟩
  unfold complete
  rw [hcompleted]
  dsimp only
  rw [hfinal]

end Completion

namespace Automaton

open Completion

variable {symbols : Registry} {rules : Array Rule} {c : Collection} {accept start : SymbolId}
  {limits : Limits} {mode : LookaheadMode} {lookaheads : Lookaheads}

/-- The completed start rule is in the collection. -/
theorem exists_holds_accepted
    (ha : Augmented rules accept start symbols.size symbols.terminalCount)
    (hc : Canonical rules c) :
    ∃ q, c.Holds q Item.accepted := by
  have hrhs : [start] = [] ++ ([start] ++ []) := rfl
  obtain ⟨q, -, h⟩ := hc.exists_walk ha.start_rule [] hrhs hc.holds_initial
  exact ⟨q, h⟩

/-- No state goes to another one on a terminal. -/
theorem not_goto_of_terminal (ha : Augmented rules accept start symbols.size symbols.terminalCount)
    (hc : Canonical rules c) {row : Array Cell}
    (hrow : row ∈ (c.table (analyze symbols rules)).rows) {t : SymbolId}
    (ht : t < symbols.terminalCount) (p : StateId) : row[t]? ≠ some (.goto p) := by
  intro hgoto
  obtain ⟨q, hq⟩ := Array.getElem?_of_mem hrow
  have hcell : (c.table (analyze symbols rules)).cell q t = .goto p := by
    simp [CellTable.cell, hq, hgoto]
  obtain ⟨q', -, h⟩ := (cell_table_iff ha hc Cell.noConfusion).1 hcell
  rw [if_pos ht] at h
  cases h

/-- **A table can be completed**, and has a final state. -/
theorem exists_complete (hend : SymbolId.endOfInput < symbols.terminalCount)
    (ha : Augmented rules accept start symbols.size symbols.terminalCount) (hc : Canonical rules c)
    (hl : lookaheads.Terminal symbols.terminalCount) :
    ∃ result, Completion.complete rules c.states lookaheads
        (c.table (analyze symbols rules)) = .ok result ∧
      result.finalState < c.states.size := by
  obtain ⟨q, state, hs, hi⟩ := exists_holds_accepted ha hc
  exact Completion.exists_complete hend hl
    (fun row hrow t ht => not_goto_of_terminal ha hc hrow ht)
    ⟨state, Array.mem_of_getElem? hs, State.mem_completed.2 ⟨hi, _, ha.start_rule, rfl⟩⟩

/-- **The construction over augmented rules meets no defect.** -/
theorem flawless_ofRules {config : Config} {grammar : Grammar}
    (hend : SymbolId.endOfInput < symbols.terminalCount)
    (ha : Augmented rules accept start symbols.size symbols.terminalCount) :
    Flawless (ofRules config symbols grammar rules) := by
  unfold ofRules
  dsimp only
  split
  · exact flawless_error fun _ => nofun
  refine (flawless_canonical rules _ config.limits).bind fun c hcanonical => ?_
  have hc := canonical_of_augmented ha hcanonical
  refine (flawless_lookaheadsOf ha hc).bind fun lookaheads hl => ?_
  obtain ⟨result, hresult, -⟩ :=
    exists_complete hend ha hc (terminal_of_lookaheadsOf hend ha hc hl)
  rw [hresult]
  exact (flawless_ok result).bind fun _ _ => flawless_ok _

/-- **The construction of an automaton meets no defect**, whatever the text and the limits are. -/
theorem flawless_generate {registry : Registry} (hmade : registry.Made) (config : Config)
    (source : String) : Flawless (generate config registry source) := by
  obtain ⟨-, hread⟩ := careful_readRules config.limits source registry hmade
  unfold generate
  split
  · next e symbols h =>
    rw [h] at hread
    exact flawless_error fun d he => hread d (congrArg _ he)
  · next grammar rules symbols h =>
    obtain ⟨hreserves, accept, ha⟩ := reserves_of_readRules hmade h
    exact flawless_ofRules (Nat.lt_of_lt_of_le (by decide) hreserves.two_le) ha

/-- **An automaton is generated where its labelled grammar is built**: nothing behind it fails. -/
theorem exists_generate {registry : Registry} (hmade : registry.Made) {source : String}
    {grammar : Grammar}
    (hread : (readRules limits source).runOn registry = (.ok (grammar, rules), symbols))
    (hsize : symbols.size ≤ limits.symbols)
    (hcanonical : canonical rules (analyze symbols rules) limits = .ok c) {g : LabelledGrammar}
    (hg : LabelledGrammar.build rules c (analyze symbols rules) symbols limits = .ok g) :
    ∃ a, generate ⟨limits, .lalr⟩ registry source = .ok a ∧ a.symbols = symbols ∧
      a.rules = rules := by
  obtain ⟨hreserves, accept, ha⟩ := reserves_of_readRules hmade hread
  have hend : SymbolId.endOfInput < symbols.terminalCount :=
    Nat.lt_of_lt_of_le (by decide) hreserves.two_le
  have hc := canonical_of_augmented ha hcanonical
  have hl : lookaheadsOf .lalr symbols rules (analyze symbols rules) c limits =
      .ok (.lalr g) := by
    unfold lookaheadsOf
    rw [hg]
    exact lalrOf_of_build ha hc hg
  obtain ⟨result, hresult, -⟩ :=
    exists_complete hend ha hc (terminal_of_lookaheadsOf hend ha hc hl)
  let a : Automaton := {
    symbols, grammar, rules, states := c.states, lookaheads := .lalr g, cells := result.table
    finalState := result.finalState, conflicts := result.conflicts, mode := .lalr }
  have hparts : Parts ⟨limits, .lalr⟩ registry source a c (.lalr g) result :=
    ⟨hread, hcanonical, hl, hresult, rfl, rfl, rfl, rfl⟩
  exact ⟨a, generate_eq_ok_iff.2 ⟨hsize, rfl, c, .lalr g, result, hparts, rfl⟩, rfl, rfl⟩

end Automaton
end ShiftReduce

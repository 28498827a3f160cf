import ShiftReduce.Proofs.Completeness
import ShiftReduce.Proofs.Soundness
import ShiftReduce.Proofs.Validity

/-!
# Proofs/Rejection — where a parser finds an error

An LALR parser may reduce on a terminal before it notices that the terminal is an error.  Without
conflicts it never shifts such a terminal, and never refuses one that some sentential form goes on
with (`Automaton.refuses_of_run`).

Such a form need not derive anything behind the terminal.  `Starts w xs` therefore cuts derivation
trees off behind the last terminal of `w`: to its left there are whole trees, which a parser builds
as it does those of a sentence, and to its right nothing is asked (`exists_runs_of_starts`).
-/

namespace ShiftReduce

open ShiftReduce.Derivation Collection ShiftReduce.Parser

/-! ## Forms that start with a word -/

/-- The form derives one that starts with the terminals of the word, of which there is one at
least. -/
inductive Starts (rules : Array Rule) (terminalCount : Nat) : List SymbolId → List SymbolId → Prop
  | terminal {t : SymbolId} (ht : t < terminalCount) (xs : List SymbolId) :
    Starts rules terminalCount [t] (t :: xs)
  | rule {r : RuleId} {rule : Rule} {w : List SymbolId} (hr : rules[r]? = some rule)
    (h : Starts rules terminalCount w rule.rhs) (xs : List SymbolId) :
    Starts rules terminalCount w (rule.lhs :: xs)
  | behind {x : SymbolId} {xs w : List SymbolId} {F : Forest SymbolId}
    (hF : F.Parses rules terminalCount id [x]) (h : Starts rules terminalCount w xs) :
    Starts rules terminalCount (F.yield ++ w) (x :: xs)

namespace Starts

variable {rules : Array Rule} {terminalCount : Nat} {w xs ys : List SymbolId}

theorem exists_cons (h : Starts rules terminalCount w xs) :
    ∃ t v, w = t :: v ∧ Begins (productions rules) terminalCount t xs := by
  induction h with
  | terminal ht xs => exact ⟨_, [], rfl, .terminal ht xs⟩
  | rule hr _ xs ih =>
    obtain ⟨t, v, rfl, ht⟩ := ih
    exact ⟨t, v, rfl, .rule (mem_productions_of_getElem? hr) ht xs⟩
  | @behind x xs w F hF _ ih =>
    obtain ⟨t, v, rfl, ht⟩ := ih
    have hd := hF.derives
    rw [List.map_id] at hd
    cases hy : F.yield with
    | nil => exact ⟨t, v, rfl, .behind (vanishes_iff_derives.2 (hy ▸ hd)) ht⟩
    | cons u us =>
      have hu : u < terminalCount := hF.lt_of_mem_yield u (by simp [hy])
      exact ⟨u, us ++ t :: v, rfl,
        begins_cons.2 (.inl ((begins_iff_derives hu).2 ⟨us, hy ▸ hd⟩))⟩

theorem append_right (h : Starts rules terminalCount w xs) (ys : List SymbolId) :
    Starts rules terminalCount w (xs ++ ys) := by
  induction h with
  | terminal ht xs => exact .terminal ht (xs ++ ys)
  | rule hr h xs => exact .rule hr h (xs ++ ys)
  | behind hF _ ih => exact .behind hF ih

theorem append_left {F : Forest SymbolId} (hF : F.Parses rules terminalCount id ys)
    (h : Starts rules terminalCount w xs) :
    Starts rules terminalCount (F.yield ++ w) (ys ++ xs) := by
  induction ys generalizing F with
  | nil =>
    obtain rfl : F = .nil := by
      generalize hys : ([] : List SymbolId) = ys at hF
      cases hF with
      | nil => rfl
      | leaf | node => simp at hys
    exact h
  | cons y ys ih =>
    have hF : F.Parses rules terminalCount id ([y] ++ ys) := hF
    obtain ⟨G, H, rfl, hG, hH⟩ := hF.exists_append
    rw [Forest.yield_append, List.append_assoc]
    exact .behind hG (ih hH)

/-- A form in two parts starts with a word in its first part, or behind a forest of it. -/
theorem of_append (h : Starts rules terminalCount w (xs ++ ys)) :
    Starts rules terminalCount w xs ∨ ∃ (F : Forest SymbolId) (v : List SymbolId),
      w = F.yield ++ v ∧ F.Parses rules terminalCount id xs ∧ Starts rules terminalCount v ys := by
  induction xs generalizing w with
  | nil => exact .inr ⟨.nil, w, rfl, .nil, h⟩
  | cons x xs ih =>
    cases h with
    | terminal ht => exact .inl (.terminal ht xs)
    | rule hr h => exact .inl (.rule hr h xs)
    | @behind _ _ w F hF h =>
      rcases ih h with h | ⟨G, v, rfl, hG, h⟩
      · exact .inl (.behind hF h)
      · exact .inr ⟨F.append G, v, by simp, hF.append hG, h⟩

theorem of_terminals (hw : w ≠ []) (hlt : ∀ t ∈ w, t < terminalCount) (ys : List SymbolId) :
    Starts rules terminalCount w (w ++ ys) := by
  induction w with
  | nil => exact absurd rfl hw
  | cons t w ih =>
    obtain ⟨ht, hlt⟩ := List.forall_mem_cons.1 hlt
    rcases eq_or_ne w [] with rfl | hne
    · exact .terminal ht ys
    · exact .behind (F := Forest.nil.leaf t) (.leaf .nil ht) (ih hne hlt)

/-- **Whatever a form derives, it starts with.** -/
theorem of_derives (h : Derives (productions rules) xs (w ++ ys)) (hw : w ≠ [])
    (hlt : ∀ t ∈ w, t < terminalCount) : Starts rules terminalCount w xs := by
  induction h using Relation.ReflTransGen.head_induction_on with
  | refl => exact of_terminals hw hlt ys
  | head hs _ ih =>
    obtain ⟨before, behind, hp⟩ := hs
    obtain ⟨r, rule, hr, rfl⟩ := mem_productions.1 hp
    rcases ih.of_append with h | ⟨F, v, rfl, hF, h⟩
    · exact h.append_right _
    refine append_left hF ?_
    rcases h.of_append with h | ⟨children, u, rfl, hchildren, h⟩
    · exact .rule hr h behind
    · exact .behind (F := Forest.nil.node r children) (.node .nil hr hchildren) h

end Starts

/-! ## What the table takes -/

namespace Table

variable {t : Table} {rules : Array Rule} {c : Collection}
  {accept start symbolCount terminalCount : Nat}

/-- **A word that an expected form starts with is taken**, whatever is ahead behind it and below on
the stack. -/
theorem Decides.exists_runs_of_starts (hd : t.Decides rules terminalCount c)
    (hc : Canonical rules c) (ha : Augmented rules accept start symbolCount terminalCount)
    {w xs : List SymbolId} (h : Starts rules terminalCount w xs) {q : StateId}
    (hq : Stands rules c q xs) (hw : SymbolId.epsilon ∉ w) :
    ∃ ms s, ∀ below v, t.Runs (q :: below) (w ++ v) ms (s ++ below) v := by
  induction h generalizing q with
  | @terminal x hx xs =>
    obtain ⟨p, he⟩ := hq.exists_edge hc
    exact ⟨[.shift x], [p, q], fun below v =>
      .shift (move?_of_shift (hd.shift_of_edge hx he)) (.refl _ _)⟩
  | rule hr _ xs ih =>
    exact ih (hq.rhs hc hr) hw
  | @behind x xs w F hF h ih =>
    obtain ⟨hF₀, hw⟩ := not_or.1 (List.mem_append.not.1 hw)
    -- the tree is expected before the first terminal of what comes behind it
    obtain ⟨u, w, rfl, hu⟩ := h.exists_cons
    have hq : Stands rules c q ([x] ++ xs) := hq
    obtain ⟨s, hs, hruns⟩ := hd.runs_of_parses hc ha hF (hq.expects hu) hF₀
      (List.ne_of_not_mem_cons hw).symm
    obtain ⟨p, s, rfl⟩ := hs.exists_cons
    obtain ⟨ms, s', hruns'⟩ := ih (hq.of_walk hs.walk) hw
    refine ⟨F.moves id ++ ms, s' ++ s, fun below v => ?_⟩
    simpa using (hruns below (w ++ v)).trans (hruns' (s ++ below) v)

/-- What the start symbol derives starts with nothing that is refused. -/
theorem Decides.not_derives_of_stuck (hd : t.Decides rules terminalCount c)
    (hc : Canonical rules c) (ha : Augmented rules accept start symbolCount terminalCount)
    {ms : List Move} {s : List StateId} {u ys : List SymbolId} {x : SymbolId}
    (hr : t.Runs [StateId.initial] (u ++ [x]) ms s [x]) (hs : t.move? x s = none)
    (hlt : ∀ y ∈ u ++ [x], y < terminalCount) (hu : SymbolId.epsilon ∉ u ++ [x]) :
    ¬ Derives (productions rules) [start] (u ++ x :: ys) := by
  intro h
  have h : Derives (productions rules) [start] ((u ++ [x]) ++ ys) := by simpa using h
  obtain ⟨ms', s', hruns⟩ := hd.exists_runs_of_starts hc ha
    (Starts.of_derives h (by simp) hlt) (expects_start hc ha).stands hu
  have hruns := hruns [] []
  rw [List.append_nil] at hruns
  exact absurd (hr.length_le_of_stuck hruns hs) (by simp)

/-- No sentence is refused at its end. -/
theorem Decides.not_derives_of_stuck_endOfInput (hd : t.Decides rules terminalCount c)
    (hc : Canonical rules c) (ha : Augmented rules accept start symbolCount terminalCount)
    {ms : List Move} {q : StateId} {s : List StateId} {u : List SymbolId}
    (hr : t.Runs [StateId.initial] (u ++ [SymbolId.endOfInput]) ms (q :: s) [SymbolId.endOfInput])
    (hq : t.cell q SymbolId.endOfInput = .error) (hlt : ∀ y ∈ u, y < terminalCount)
    (hu : SymbolId.epsilon ∉ u) : ¬ Derives (productions rules) [start] u := by
  intro h
  obtain ⟨F, hF, rfl⟩ := Forest.exists_parses_of_derives h hlt
  obtain ⟨q', s', hq', hruns⟩ := hd.exists_runs_accept hc ha hF hu
  obtain ⟨-, hs⟩ := hr.unique_of_stuck hruns (by simp [move?, hq]) (move?_of_accept hq')
  obtain ⟨rfl, -⟩ := List.cons.inj hs
  exact Cell.noConfusion (hq.symm.trans hq')

end Table

/-! ## Rejection -/

/-- The terminals that a run has shifted. -/
def Parser.shifted (lookups : List Lookup) : List SymbolId :=
  (movesOf lookups).filterMap Move.terminal?

/-- What is true of a run of an automaton that has shifted the terminals `u` and was refused the
terminal `x` in the state `q`. -/
structure Automaton.Refuses {ε : Type} (a : Automaton) (tokens : List (Except ε Token))
    (u : List SymbolId) (q : StateId) (x : SymbolId) (location : Location) : Prop where
  /-- These are the terminals of the stream, from the first one on. -/
  streamed : ∃ (read : List Lookahead) (last : Lookahead), read.map Lookahead.terminal = u ∧
    last.terminal = x ∧ last.token.location = location ∧
    ∀ n l, (read ++ [last])[n]? = some l → streamed tokens .start n = .ok l.token ∧
      a.table.terminal? l.token.kind.terminal = some l.terminal
  cell : a.table.cell q x = .error
  /-- Some sentential form begins with what was shifted, -/
  viable : ∃ ys, Derives (productions a.rules) [a.grammar.start] (u ++ ys)
  /-- none goes on with the terminal, -/
  not_viable : ∀ ys, ¬ Derives (productions a.rules) [a.grammar.start] (u ++ x :: ys)
  /-- and where the end of the input is refused, there is no sentence. -/
  not_sentence : x = SymbolId.endOfInput → ¬ Derives (productions a.rules) [a.grammar.start] u

/-- An answer that refuses a token. -/
def Parser.Answer.isUnexpected {ε : Type} : Answer ε → Bool
  | .error (.unexpected ..) => true
  | _ => false

theorem Parser.Answer.exists_of_isUnexpected {ε : Type} {answer : Answer ε}
    (h : answer.isUnexpected = true) :
    ∃ q x name location, answer = .error (.unexpected q x name location) := by
  unfold isUnexpected at h
  split at h
  · exact ⟨_, _, _, _, rfl⟩
  · cases h

/-- A parser is refused a lookahead behind the moves of its run. -/
theorem Parser.exists_reaches_of_run_unexpected {ε : Type} {t : Table} {fuel : Nat}
    {tokens : List (Except ε Token)} {lookups : List Lookup} {q : StateId} {x : SymbolId}
    {name : String} {location : Location}
    (h : run t fuel tokens = (lookups, some (.error (.unexpected q x name location)))) :
    ∃ c₀ c s, initial t tokens = .ok c₀ ∧ Reaches t c₀ (movesOf lookups) c ∧ c.states = q :: s ∧
      c.lookahead.terminal = x ∧ c.lookahead.token.location = location ∧
      (t.cell q x = .error ∨ ∃ q', t.cell q x = .goto q') := by
  rcases exists_reaches_of_run h with ⟨e, he, hread⟩ | ⟨c₀, ms, c, ls, hinitial, hr, hstep, hmoves⟩
  · obtain rfl := Except.error.inj he
    rcases Input.eq_of_read_error hread with ⟨_, h⟩ | ⟨_, _, h⟩ <;> cases h
  generalize he : Error.unexpected q x name location = e at hstep
  cases fails_of_step hstep with
  | read _ _ hread =>
    subst he
    rcases Input.eq_of_read_error hread with ⟨_, h⟩ | ⟨_, _, h⟩ <;> cases h
  | unexpected hs hcell hls =>
    obtain ⟨rfl, rfl, rfl, rfl⟩ := Error.unexpected.inj he
    rw [hls, List.append_nil] at hmoves
    exact ⟨c₀, c, _, hinitial, hmoves ▸ hr, by rw [Config.states, hs, List.map_cons], rfl, rfl,
      hcell⟩
  | nothing | unknownRule | emptied | action | missingGoto => cases he

/-- Only the terminal that stands for the empty string is read as it. -/
theorem Parser.ne_epsilon_of_streamed {ε : Type} {t : Table} {tokens : List (Except ε Token)}
    (hend : t.terminal? Terminal.endOfInput = some SymbolId.endOfInput)
    (htokens : ∀ token, .ok token ∈ tokens →
      t.terminal? token.kind.terminal ≠ some SymbolId.epsilon) {n : Nat} {token : Token}
    (h : streamed tokens .start n = .ok token) :
    t.terminal? token.kind.terminal ≠ some SymbolId.epsilon := by
  cases hn : tokens[n]? with
  | some read =>
    rw [streamed, hn] at h
    obtain rfl : read = .ok token := h
    exact htokens token (List.mem_of_getElem? hn)
  | none =>
    rw [streamed, hn] at h
    obtain rfl := Except.ok.inj h
    rw [Token.endOfInput, Token.Kind.terminal, hend]
    decide

/-- What was read are terminals, and never the one that stands for the empty string. -/
theorem Parser.Evaluated.lt_of_mem {ε : Type} {t : Table} {rules : Array Rule} {terminalCount : Nat}
    {c : Collection} {tokens : List (Except ε Token)} {ms : List Move} {config : Parser.Config ε}
    {xs : List SymbolId} {F : Forest Lookahead} {values : List (Option Ast)}
    (h : Evaluated t rules terminalCount c tokens ms config xs F values)
    (hf : t.Follows rules terminalCount c)
    (htokens : ∀ token, .ok token ∈ tokens →
      t.terminal? token.kind.terminal ≠ some SymbolId.epsilon) :
    ∀ y ∈ F.yield.map Lookahead.terminal ++ [config.lookahead.terminal],
      y < terminalCount ∧ SymbolId.epsilon ≠ y := by
  intro y hy
  rw [← List.map_singleton (f := Lookahead.terminal), ← List.map_append] at hy
  obtain ⟨l, hl, rfl⟩ := List.mem_map.1 hy
  obtain ⟨n, hn⟩ := List.getElem?_of_mem hl
  obtain ⟨hstreamed, hterminal⟩ := h.reads.streamed_eq n l hn
  exact ⟨hf.terminal? hterminal, fun hx =>
    ne_epsilon_of_streamed hf.endOfInput htokens hstreamed (hx ▸ hterminal)⟩

/-- **Errors are found where they are**: what a parser on an LALR automaton without conflicts has
shifted can go on, and what it refuses then cannot come next. -/
theorem Automaton.refuses_of_run {ε : Type} {config : Config} {registry : Registry}
    {source : String} {a : Automaton} (hmade : registry.Made)
    (h : generate config registry source = .ok a) (hmode : config.mode = .lalr)
    (hconflicts : a.conflicts = []) {tokens : List (Except ε Token)}
    (htokens : ∀ token, .ok token ∈ tokens →
      a.table.terminal? token.kind.terminal ≠ some SymbolId.epsilon) {fuel : Nat}
    {lookups : List Lookup} {q : StateId} {x : SymbolId} {name : String} {location : Location}
    (hrun : run a.table fuel tokens =
      (lookups, some (.error (.unexpected q x name location)))) :
    a.Refuses tokens (shifted lookups) q x location := by
  obtain ⟨c, lookaheads, result, hp⟩ := parts_of_generate h
  obtain ⟨hreserves, accept, ha⟩ := reserves_of_readRules hmade hp.read
  have hc := canonical_of_augmented ha hp.canonical
  have hd := hp.decides hreserves ha hmode hconflicts
  obtain ⟨c₀, c', s, hinitial, hr, hs, rfl, rfl, hcell⟩ := exists_reaches_of_run_unexpected hrun
  obtain ⟨xs, F, values, he⟩ := (evaluated_initial hinitial).reaches hd.toFollows hc ha hr
  have hu : F.yield.map Lookahead.terminal = shifted lookups := by
    rw [Forest.map_yield_eq, he.moves]
    rfl
  have hmem := he.lt_of_mem hd.toFollows htokens
  have hruns := hr.runs []
  rw [states_of_initial hinitial, hs] at hruns
  rw [hu] at hmem
  have hcell : a.table.cell q c'.lookahead.terminal = .error := by
    rcases hcell with hcell | ⟨q', hcell⟩
    · exact hcell
    · exact absurd (hd.goto hcell).1 (Nat.not_le_of_lt (hmem _ (by simp)).1)
  have hlt := fun y hy => (hmem y hy).1
  have hepsilon := fun h => (hmem _ h).2 rfl
  refine ⟨⟨F.yield, c'.lookahead, hu, rfl, rfl, he.reads.streamed_eq⟩, hcell, ?_, fun ys => ?_,
    fun hx => ?_⟩
  · obtain ⟨ys, hys⟩ := Item.exists_derives_of_walk hc ha (hs ▸ he.stack).walk
    exact ⟨ys, hu ▸ hys.trans (he.parses.derives.append_right ys)⟩
  · exact hd.not_derives_of_stuck hc ha hruns (by simp [Table.move?, hcell]) hlt hepsilon
  · rw [hx] at hruns hcell
    exact hd.not_derives_of_stuck_endOfInput hc ha hruns hcell
      (fun y hy => hlt y (List.mem_append_left _ hy)) fun h => hepsilon (List.mem_append_left _ h)

/-- Behind a number and a plus, a second plus is refused. -/
theorem Automaton.refuses_of_run_sum : ∃ (a : Automaton) (tokens : List Token)
    (lookups : List Lookup) (q : StateId) (x : SymbolId) (name : String) (location : Location),
    Registry.standard.Made ∧ generate {} .standard "s = s '+' NUM; s = NUM;" = .ok a ∧
    a.conflicts = [] ∧ tokens = [.int 1 .start, .keyword "+" .start, .keyword "+" .start] ∧
    (∀ token, .ok token ∈ tokens.map (Except.ok (ε := Unit)) →
      a.table.terminal? token.kind.terminal ≠ some SymbolId.epsilon) ∧
    run (ε := Unit) a.table 9 (tokens.map .ok) =
      (lookups, some (.error (.unexpected q x name location))) ∧
    a.Refuses (ε := Unit) (tokens.map .ok) (shifted lookups) q x location := by
  let tokens : List Token := [.int 1 .start, .keyword "+" .start, .keyword "+" .start]
  have hok : (generate {} .standard "s = s '+' NUM; s = NUM;").toOption.any (fun a =>
      a.conflicts = [] ∧
      (∀ token ∈ tokens, a.table.terminal? token.kind.terminal ≠ some SymbolId.epsilon) ∧
      (run (ε := Unit) a.table 9 (tokens.map .ok)).2.any (·.isUnexpected)) = true := by
    decide +kernel
  obtain ⟨a, ha, hok⟩ := Except.exists_of_any_toOption hok
  obtain ⟨hconflicts, htokens, hok⟩ := of_decide_eq_true hok
  have htokens : ∀ token, .ok token ∈ tokens.map (Except.ok (ε := Unit)) →
      a.table.terminal? token.kind.terminal ≠ some SymbolId.epsilon := by
    intro token htoken
    obtain ⟨_, hmem, ⟨⟩⟩ := List.mem_map.1 htoken
    exact htokens token hmem
  obtain ⟨answer, hanswer, hok⟩ := (Option.any_eq_true _ _).1 hok
  obtain ⟨q, x, name, location, rfl⟩ := Answer.exists_of_isUnexpected hok
  exact ⟨a, tokens, _, q, x, name, location, .standard, ha, hconflicts, rfl, htokens,
    Prod.ext rfl hanswer,
    refuses_of_run .standard ha rfl hconflicts htokens (Prod.ext rfl hanswer)⟩

end ShiftReduce

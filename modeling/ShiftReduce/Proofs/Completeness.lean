import ShiftReduce.Proofs.Run
import ShiftReduce.Proofs.Simulation

/-!
# Proofs/Completeness — a parser without conflicts finds every derivation tree

On an LALR automaton without conflicts a parser makes the moves of any derivation tree over its
input, and so no sentence has two.  The terminal that stands for the empty string is kept out, since
nothing is ever reduced before it.
-/

namespace ShiftReduce

open ShiftReduce.Derivation Collection ShiftReduce.Parser

namespace Table

variable {t : Table} {rules : Array Rule} {c : Collection}
  {accept start symbolCount terminalCount : Nat}

/-- **The moves of a derivation tree lead from the initial state to one that accepts.** -/
theorem Decides.exists_runs_accept (hd : t.Decides rules terminalCount c) (hc : Canonical rules c)
    (ha : Augmented rules accept start symbolCount terminalCount) {F : Forest SymbolId}
    (hF : F.Parses rules terminalCount id [start]) (hy : SymbolId.epsilon ∉ F.yield) :
    ∃ q s, t.cell q SymbolId.endOfInput = .accept ∧
      t.Runs [StateId.initial] (F.yield ++ [SymbolId.endOfInput]) (F.moves id) (q :: s)
        [SymbolId.endOfInput] := by
  obtain ⟨s, hs, hruns⟩ := hd.runs_of_parses hc ha hF (expects_start hc ha) hy (by decide)
  obtain ⟨q, s, rfl⟩ := hs.exists_cons
  have hq : c.Holds q Item.accepted :=
    hc.holds_completed ha.start_rule hc.holds_initial hs.walk
  exact ⟨q, s, hd.accept_of_holds hq, by simpa using hruns [] []⟩

/-- **A sentence has one derivation tree.** -/
theorem Decides.eq_of_yield_eq (hd : t.Decides rules terminalCount c) (hc : Canonical rules c)
    (ha : Augmented rules accept start symbolCount terminalCount) {F G : Forest SymbolId}
    (hF : F.Parses rules terminalCount id [start]) (hG : G.Parses rules terminalCount id [start])
    (hy : SymbolId.epsilon ∉ F.yield) (h : G.yield = F.yield) : G = F := by
  obtain ⟨q, s, hq, hruns⟩ := hd.exists_runs_accept hc ha hF hy
  obtain ⟨q', s', hq', hruns'⟩ := hd.exists_runs_accept hc ha hG (h ▸ hy)
  rw [h] at hruns'
  exact Forest.eq_of_moves_eq hG hF
    (hruns'.unique_of_stuck hruns (move?_of_accept hq') (move?_of_accept hq)).1

end Table

/-! ## Completeness -/

/-- **Completeness**: given tokens for the leaves of a derivation tree, a parser on an LALR
automaton without conflicts makes the moves of the tree and accepts, or an action fails on the way.
There is no other derivation tree over these leaves. -/
theorem Automaton.run_eq_moves {ε : Type} {config : Config} {registry : Registry} {source : String}
    {a : Automaton} (hmade : registry.Made) (h : generate config registry source = .ok a)
    (hmode : config.mode = .lalr) (hconflicts : a.conflicts = []) {F : Forest SymbolId}
    (hF : F.Parses a.rules a.symbols.terminalCount id [a.grammar.start])
    (hy : SymbolId.epsilon ∉ F.yield) :
    (∀ tokens : List Token,
      tokens.map (fun token => a.table.terminal? token.kind.terminal) = F.yield.map some →
      ∀ fuel, (F.moves id).length < fuel →
        ∃ lookups answer, run (ε := ε) a.table fuel (tokens.map .ok) = (lookups, some answer) ∧
          ((∃ node, answer = .ok node) ∧ movesOf lookups = F.moves id ∨
            (∃ e, answer = .error (.action e)) ∧ ∃ r, movesOf lookups <+: F.moves id ∧
              (movesOf lookups).getLast? = some (.reduce r))) ∧
    ∀ G : Forest SymbolId, G.Parses a.rules a.symbols.terminalCount id [a.grammar.start] →
      G.yield = F.yield → G = F := by
  obtain ⟨c, lookaheads, result, hp⟩ := parts_of_generate h
  obtain ⟨hreserves, accept, ha⟩ := reserves_of_readRules hmade hp.read
  have hc := canonical_of_augmented ha hp.canonical
  have hd := hp.decides hreserves ha hmode hconflicts
  refine ⟨fun tokens htokens fuel hfuel => ?_, fun G hG => hd.eq_of_yield_eq hc ha hF hG hy⟩
  obtain ⟨q, s, hq, hruns⟩ := hd.exists_runs_accept hc ha hF hy
  obtain ⟨as, input, hreads, has⟩ :=
    Input.exists_reads_of_tokens (ε := ε) hd.endOfInput htokens .start
  rw [← has] at hruns
  cases hreads with
  | nil => simp at has
  | @cons _ input₀ _ a₀ as hread hreads =>
  have hinitial : initial a.table (tokens.map .ok) =
      .ok ⟨[⟨StateId.initial, none⟩], a₀, input₀⟩ := by
    simp only [initial, hread, bind, Except.bind]
  have hrun {ms : List Move} {answer : Answer ε}
      (h : ∃ lookups, runFrom a.table fuel ⟨[⟨StateId.initial, none⟩], a₀, input₀⟩ [] =
        (lookups, some answer) ∧ movesOf lookups.reverse = ms) :
      ∃ lookups, run a.table fuel (tokens.map .ok) = (lookups, some answer) ∧
        movesOf lookups = ms := by
    obtain ⟨lookups, hrun, hmoves⟩ := h
    exact ⟨lookups.reverse, by simp only [run, hinitial, hrun], hmoves⟩
  rcases exists_reaches_of_runs (c := ⟨[⟨StateId.initial, none⟩], a₀, input₀⟩) hruns rfl hreads rfl
    with ⟨c', hr, hs, hx⟩ | ⟨ms₁, r, ms₂, c', ls, e, hms, hr, hstep, hls⟩
  · obtain ⟨node, ls, hstep, hls⟩ := exists_step_accepted hs (hx ▸ hq)
    obtain ⟨lookups, hrun, hmoves⟩ := hrun (hr.exists_answer (.ok node) hstep hfuel)
    rw [hls, List.append_nil] at hmoves
    exact ⟨lookups, _, hrun, .inl ⟨⟨node, rfl⟩, hmoves⟩⟩
  · have hlength : ms₁.length < fuel := by
      rw [hms, List.length_append] at hfuel
      omega
    obtain ⟨lookups, hrun, hmoves⟩ :=
      hrun (hr.exists_answer (.error (.action e)) hstep hlength)
    rw [hls] at hmoves
    refine ⟨lookups, _, hrun, .inr ⟨⟨e, rfl⟩, r, ?_, by simp [hmoves]⟩⟩
    exact ⟨ms₂, by simp [hmoves, hms]⟩

/-- A sum of two numbers has one derivation tree, and a parser finds it. -/
theorem Automaton.run_eq_moves_sum : ∃ (a : Automaton) (F : Forest SymbolId) (tokens : List Token),
    Registry.standard.Made ∧ generate {} .standard "s = s '+' NUM; s = NUM;" = .ok a ∧
    a.conflicts = [] ∧ F.Parses a.rules a.symbols.terminalCount id [a.grammar.start] ∧
    SymbolId.epsilon ∉ F.yield ∧
    tokens.map (fun token => a.table.terminal? token.kind.terminal) = F.yield.map some ∧
    ((∃ lookups answer, run (ε := Unit) a.table 9 (tokens.map .ok) = (lookups, some answer) ∧
      ((∃ node, answer = .ok node) ∧ movesOf lookups = F.moves id ∨
        (∃ e, answer = .error (.action e)) ∧ ∃ r, movesOf lookups <+: F.moves id ∧
          (movesOf lookups).getLast? = some (.reduce r))) ∧
      ∀ G : Forest SymbolId, G.Parses a.rules a.symbols.terminalCount id [a.grammar.start] →
        G.yield = F.yield → G = F) := by
  let F : Forest SymbolId := .node .nil 1 (((Forest.node .nil 2 (.leaf .nil 3)).leaf 19).leaf 3)
  let tokens : List Token := [.int 1 .start, .keyword "+" .start, .int 2 .start]
  have hok : (generate {} .standard "s = s '+' NUM; s = NUM;").toOption.any (fun a =>
      a.conflicts = [] ∧ F.Parses a.rules a.symbols.terminalCount id [a.grammar.start] ∧
        tokens.map (fun token => a.table.terminal? token.kind.terminal) = F.yield.map some)
      = true := by decide +kernel
  obtain ⟨a, ha, hok⟩ := Except.exists_of_any_toOption hok
  obtain ⟨hconflicts, hF, htokens⟩ := of_decide_eq_true hok
  have hy : SymbolId.epsilon ∉ F.yield := by decide
  obtain ⟨hrun, hunique⟩ := run_eq_moves (ε := Unit) .standard ha rfl hconflicts hF hy
  exact ⟨a, F, tokens, .standard, ha, hconflicts, hF, hy, htokens,
    hrun tokens htokens 9 (by decide), hunique⟩

end ShiftReduce

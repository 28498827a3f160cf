import ShiftReduce.Proofs.Action
import ShiftReduce.Proofs.Soundness

/-!
# Proofs/Safety — errors that no input causes

A parser checks its table as it goes, and some of its errors tell of a table that is broken
(`Parser.Error.Internal`).  The table of a generated automaton causes none of them, in either mode
and with any conflicts: whenever a cell tells a parser to reduce, the states on top of the stack are
those of a right-hand side, since they are a walk, and the state below has a goto on the left-hand
side, since the rule began there.
-/

namespace ShiftReduce

open ShiftReduce.Derivation Collection ShiftReduce.Parser

namespace Parser

variable {ε : Type} {t : Table} {rules : Array Rule} {terminalCount : Nat} {c : Collection}
  {accept start symbolCount : Nat} {tokens : List (Except ε Token)}

/-- An error that tells of a broken table. -/
def Error.Internal : Error ε → Prop
  | .missingGoto .. | .unknownRule _ | .emptyStack => True
  | .action e => e.problem.Misfit
  | .lexer _ | .unexpected .. | .unknownTerminal .. => False

/-- The error of an action that a parser fails with. -/
def Answer.actionError? : Answer ε → Option Action.Error
  | .error (.action e) => some e
  | _ => none

theorem Answer.eq_of_actionError? {answer : Answer ε} {e : Action.Error}
    (h : answer.actionError? = some e) : answer = .error (.action e) := by
  unfold actionError? at h
  split at h
  · rw [Option.some.inj h]
  · cases h

theorem Input.not_internal_of_read {input : Input ε} {e : Error ε} (h : input.read t = .error e) :
    ¬ e.Internal := by
  rcases Input.eq_of_read_error h with ⟨_, rfl⟩ | ⟨_, _, rfl⟩ <;> exact id

/-- A lookup of a reduction is one of a rule whose right-hand side is on top of the stack. -/
theorem Evaluated.exists_reduction (hf : t.Follows rules terminalCount c) (hc : Canonical rules c)
    (ha : Augmented rules accept start symbolCount terminalCount) {ms : List Move}
    {config : Config ε} {xs : List SymbolId} {F : Forest Lookahead} {values : List (Option Ast)}
    (h : Evaluated t rules terminalCount c tokens ms config xs F values) {top : Frame}
    {below : List Frame} (hs : config.stack = top :: below) {x : SymbolId} {r : RuleId}
    (hcell : t.cell top.state x = .reduce r) :
    ∃ rule p rest q, rules[r]? = some rule ∧ t.rule? r = some (Automaton.reduction rule) ∧
      (top :: below).drop rule.rhs.length = p :: rest ∧ c.Edge p.state rule.lhs q ∧
      rule.rhs.length ≤ (top :: below).length := by
  obtain ⟨hne, rule, hr, hq⟩ := hf.reduce hcell
  have hstack : Stack c StateId.initial (top.state :: below.map Frame.state) xs := by
    have := h.stack
    rwa [Config.states, hs] at this
  obtain ⟨p, rest, hdrop⟩ := hstack.exists_drop hc hq
  obtain ⟨rule', -, hr', -, -, hp, -⟩ := hstack.of_drop hc ha hq hdrop
  obtain ⟨q, he⟩ := hc.exists_edge_lhs hp hr hne
  have hmap : ((top :: below).drop rule.rhs.length).map Frame.state = p :: rest := by
    rw [List.map_drop]
    exact hdrop
  obtain ⟨frame, frames, hframes, rfl, -⟩ := List.map_eq_cons_iff.1 hmap
  refine ⟨rule, frame, frames, q, hr, by rw [hf.rule?, hr]; rfl, hframes, he, ?_⟩
  by_contra hlt
  rw [List.drop_eq_nil_of_le (Nat.le_of_not_le hlt)] at hframes
  cases hframes

/-- **A step does not fail for the table.** -/
theorem Evaluated.not_internal (hf : t.Follows rules terminalCount c) (hc : Canonical rules c)
    (ha : Augmented rules accept start symbolCount terminalCount) (hfits : Grammar.Fitting rules)
    (hgoto : ∀ {p q x}, terminalCount ≤ x → c.Edge p x q → t.cell p x = .goto q)
    {ms : List Move} {config : Config ε} {xs : List SymbolId} {F : Forest Lookahead}
    {values : List (Option Ast)}
    (h : Evaluated t rules terminalCount c tokens ms config xs F values) {ls : List Lookup}
    {e : Error ε} (hfails : Fails t config ls e) : ¬ e.Internal := by
  cases hfails with
  | nothing hs =>
    obtain ⟨q, s, hstates⟩ := h.stack.exists_cons
    rw [Config.states, hs] at hstates
    cases hstates
  | read _ _ hread => exact Input.not_internal_of_read hread
  | unknownRule hs hcell hrule =>
    obtain ⟨rule, p, rest, q, -, hrule', -⟩ := h.exists_reduction hf hc ha hs hcell
    cases hrule.symm.trans hrule'
  | emptied hs hcell hrule hdrop =>
    obtain ⟨rule, p, rest, q, -, hrule', hdrop', -⟩ := h.exists_reduction hf hc ha hs hcell
    obtain rfl := Option.some.inj (hrule.symm.trans hrule')
    cases hdrop.symm.trans hdrop'
  | action hs hcell hrule hdrop haction =>
    obtain ⟨rule, p, rest, q, hr, hrule', -, -, hle⟩ := h.exists_reduction hf hc ha hs hcell
    obtain rfl := Option.some.inj (hrule.symm.trans hrule')
    refine Action.Fits.not_misfit ?_ haction
    rw [List.length_map, List.length_reverse, List.length_take,
      show (Automaton.reduction rule).size = rule.rhs.length from rfl, Nat.min_eq_left hle]
    exact hfits rule (Array.mem_of_getElem? hr)
  | missingGoto hs hcell hrule hdrop hnone =>
    obtain ⟨rule, p, rest, q, hr, hrule', hdrop', he, -⟩ := h.exists_reduction hf hc ha hs hcell
    obtain rfl := Option.some.inj (hrule.symm.trans hrule')
    obtain ⟨rfl, -⟩ := List.cons.inj (hdrop.symm.trans hdrop')
    exact absurd (hgoto (ha.le_lhs hr) he) (hnone q)
  | unexpected => exact id

/-- No goto is in the column of a lookahead. -/
theorem Evaluated.ne_goto (hf : t.Follows rules terminalCount c) {ms : List Move}
    {config : Config ε} {xs : List SymbolId} {F : Forest Lookahead} {values : List (Option Ast)}
    (h : Evaluated t rules terminalCount c tokens ms config xs F values) (p q : StateId) :
    t.cell p config.lookahead.terminal ≠ .goto q := by
  intro hcell
  obtain ⟨-, hterminal⟩ := h.reads.streamed_eq F.yield.length config.lookahead (by simp)
  exact absurd (hf.goto hcell).1 (Nat.not_le_of_lt (hf.terminal? hterminal))

end Parser

/-- **Generated tables are not broken**: no run of a parser on an automaton ends in an internal
error, in either mode and with any conflicts.  At every stage it comes to, the stack is not empty,
the lookahead finds no goto, and the next step does not fail for the table. -/
theorem Automaton.not_internal_of_run {ε : Type} {config : Config} {registry : Registry}
    {source : String} {a : Automaton} (hmade : registry.Made)
    (h : generate config registry source = .ok a) (tokens : List (Except ε Token)) :
    (∀ fuel lookups e, run a.table fuel tokens = (lookups, some (.error e)) → ¬ e.Internal) ∧
    ∀ c₀ ms c, initial a.table tokens = .ok c₀ → Reaches a.table c₀ ms c →
      ∃ top below, c.stack = top :: below ∧
        (∀ q, a.table.cell top.state c.lookahead.terminal ≠ .goto q) ∧
        ∀ ls e, step a.table c = (ls, .failed e) → ¬ e.Internal := by
  obtain ⟨collection, lookaheads, result, hp⟩ := parts_of_generate h
  obtain ⟨hreserves, accept, ha⟩ := reserves_of_readRules hmade hp.read
  have hc := canonical_of_augmented ha hp.canonical
  have hf := hp.follows hreserves ha
  have hfits := fitting_of_readRules hp.read
  have hstep {c₀ ms c} (hinitial : initial a.table tokens = .ok c₀) (hr : Reaches a.table c₀ ms c)
      {ls e} (hfails : step a.table c = (ls, .failed e)) : ¬ e.Internal := by
    obtain ⟨xs, F, values, he⟩ := (evaluated_initial hinitial).reaches hf hc ha hr
    exact he.not_internal hf hc ha hfits (hp.goto_of_edge ha) (fails_of_step hfails)
  refine ⟨fun fuel lookups e hrun => ?_, fun c₀ ms c hinitial hr => ?_⟩
  · rcases exists_reaches_of_run hrun with
      ⟨e', he, hread⟩ | ⟨c₀, ms, c, ls, hinitial, hr, hfails, -⟩
    · obtain rfl := Except.error.inj he
      exact Input.not_internal_of_read hread
    · exact hstep hinitial hr hfails
  · obtain ⟨xs, F, values, he⟩ := (evaluated_initial hinitial).reaches hf hc ha hr
    obtain ⟨q, s, hs⟩ := he.stack.exists_cons
    obtain ⟨top, below, hstack, rfl, -⟩ := List.map_eq_cons_iff.1 hs
    exact ⟨top, below, hstack, he.ne_goto hf top.state, fun ls e => hstep hinitial hr⟩

/-- A parser of an ambiguous grammar fails for a child that is no identifier, and not for its
table. -/
theorem Automaton.not_internal_of_run_sum : ∃ (a : Automaton) (tokens : List (Except Unit Token))
    (lookups : List Lookup) (e : Action.Error) (c₀ c : Parser.Config Unit) (ms : List Move),
    Registry.standard.Made ∧
    generate { mode := .slr } .standard "s = s '+' s { var 1 0 }; s = NUM;" = .ok a ∧
    a.conflicts ≠ [] ∧ run a.table 9 tokens = (lookups, some (.error (.action e))) ∧
    ¬ e.problem.Misfit ∧ initial a.table tokens = .ok c₀ ∧ Reaches a.table c₀ ms c ∧
    ms.length = 2 ∧ ∃ top below, c.stack = top :: below ∧
      (∀ q, a.table.cell top.state c.lookahead.terminal ≠ .goto q) ∧
      ∀ ls e, step a.table c = (ls, .failed e) → ¬ e.Internal := by
  let tokens : List (Except Unit Token) :=
    [.ok (.int 1 .start), .ok (.keyword "+" .start), .ok (.int 2 .start)]
  have hok : (generate { mode := .slr } .standard
      "s = s '+' s { var 1 0 }; s = NUM;").toOption.any (fun a =>
      a.conflicts ≠ [] ∧
      (run a.table 9 tokens).2.any (·.actionError?.isSome) ∧
      (initial a.table tokens).toOption.any (fun c₀ =>
        (step a.table c₀).2.next?.any fun c₁ => (step a.table c₁).2.next?.isSome)) = true := by
    decide +kernel
  obtain ⟨a, ha, hok⟩ := Except.exists_of_any_toOption hok
  obtain ⟨hconflicts, hrun, hok⟩ := of_decide_eq_true hok
  obtain ⟨answer, hanswer, hrun⟩ := (Option.any_eq_true _ _).1 hrun
  obtain ⟨c₀, hinitial, hok⟩ := Except.exists_of_any_toOption hok
  obtain ⟨c₁, hstep₁, hok⟩ := (Option.any_eq_true _ _).1 hok
  obtain ⟨c₂, hstep₂⟩ := Option.isSome_iff_exists.1 hok
  obtain ⟨m₁, -, h₁⟩ := exists_makes_of_step (Prod.ext rfl (Outcome.eq_next_of_next? hstep₁))
  obtain ⟨m₂, -, h₂⟩ := exists_makes_of_step (Prod.ext rfl (Outcome.eq_next_of_next? hstep₂))
  have hr : Reaches a.table c₀ [m₁, m₂] c₂ := .head h₁ (.head h₂ (.refl c₂))
  obtain ⟨hruns, hstages⟩ := not_internal_of_run .standard ha tokens
  obtain ⟨e, he⟩ := Option.isSome_iff_exists.1 hrun
  obtain rfl := Answer.eq_of_actionError? he
  exact ⟨a, tokens, _, e, c₀, c₂, _, .standard, ha, hconflicts, Prod.ext rfl hanswer,
    hruns 9 _ _ (Prod.ext rfl hanswer), hinitial, hr, rfl, hstages c₀ _ c₂ hinitial hr⟩

end ShiftReduce

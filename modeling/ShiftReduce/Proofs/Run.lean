import ShiftReduce.Proofs.StateStack

/-!
# Proofs/Run — runs of a parser

A step of a parser makes one move, accepts or fails (`comes_step`).  On the states of the stack a
move is one of the table (`Makes.move?_eq`), and conversely a parser can make every move of its
table, unless the input or an action fails (`makes_of_move?_shift`, `makes_of_move?_reduce`).
`Reaches` follows the moves of a run, and `exists_reaches_of_runs` takes it from the table to a
parser.

`Input.Reads` follows the lookaheads through the input, which is its tokens and then end tokens for
ever (`streamed`).
-/

namespace ShiftReduce.Parser

variable {ε : Type} {t : Table}

/-! ## Moves -/

/-- The move that a lookup leads to; the lookup of a goto belongs to the reduction before it. -/
def Lookup.move? (l : Lookup) : Option Move :=
  match l.cell with
  | .shift _ => some (.shift l.symbol)
  | .reduce r => some (.reduce r)
  | _ => none

/-- The moves of a run, in the order of its lookups. -/
def movesOf (lookups : List Lookup) : List Move := lookups.filterMap Lookup.move?

theorem movesOf_append (ls ls' : List Lookup) : movesOf (ls ++ ls') = movesOf ls ++ movesOf ls' :=
  List.filterMap_append

/-- The states of the stack. -/
def Config.states (c : Config ε) : List StateId := c.stack.map Frame.state

/-- A step that goes on. -/
inductive Makes (t : Table) : Config ε → Move → Config ε → Prop
  | shift {top : Frame} {below : List Frame} {a : Lookahead} {input : Input ε} {q : StateId}
    {a' : Lookahead} {input' : Input ε} (hcell : t.cell top.state a.terminal = .shift q)
    (hread : input.read t = .ok (a', input')) :
    Makes t ⟨top :: below, a, input⟩ (.shift a.terminal)
      ⟨⟨q, some (.leaf a.token)⟩ :: top :: below, a', input'⟩
  | reduce {top p : Frame} {below rest : List Frame} {a : Lookahead} {input : Input ε} {r : RuleId}
    {rule : Reduction} {node : Option Ast} {q : StateId}
    (hcell : t.cell top.state a.terminal = .reduce r) (hrule : t.rule? r = some rule)
    (hdrop : (top :: below).drop rule.size = p :: rest)
    (haction : rule.action.reduce (((top :: below).take rule.size).reverse.map Frame.node)
      a.token.location = .ok node)
    (hgoto : t.cell p.state rule.lhs = .goto q) :
    Makes t ⟨top :: below, a, input⟩ (.reduce r) ⟨⟨q, node⟩ :: p :: rest, a, input⟩

/-- A step that fails, and why. -/
inductive Fails (t : Table) (c : Config ε) (ls : List Lookup) : Error ε → Prop
  | nothing (hs : c.stack = []) : Fails t c ls .emptyStack
  | read {top : Frame} {below : List Frame} {q : StateId} {e : Error ε}
    (hs : c.stack = top :: below) (hcell : t.cell top.state c.lookahead.terminal = .shift q)
    (hread : c.input.read t = .error e) : Fails t c ls e
  | unknownRule {top : Frame} {below : List Frame} {r : RuleId} (hs : c.stack = top :: below)
    (hcell : t.cell top.state c.lookahead.terminal = .reduce r) (hrule : t.rule? r = none) :
    Fails t c ls (.unknownRule r)
  | emptied {top : Frame} {below : List Frame} {r : RuleId} {rule : Reduction}
    (hs : c.stack = top :: below) (hcell : t.cell top.state c.lookahead.terminal = .reduce r)
    (hrule : t.rule? r = some rule) (hdrop : (top :: below).drop rule.size = []) :
    Fails t c ls .emptyStack
  | action {top p : Frame} {below rest : List Frame} {r : RuleId} {rule : Reduction}
    {e : Action.Error} (hs : c.stack = top :: below)
    (hcell : t.cell top.state c.lookahead.terminal = .reduce r) (hrule : t.rule? r = some rule)
    (hdrop : (top :: below).drop rule.size = p :: rest)
    (haction : rule.action.reduce (((top :: below).take rule.size).reverse.map Frame.node)
      c.lookahead.token.location = .error e) : Fails t c ls (.action e)
  | missingGoto {top p : Frame} {below rest : List Frame} {r : RuleId} {rule : Reduction}
    (hs : c.stack = top :: below) (hcell : t.cell top.state c.lookahead.terminal = .reduce r)
    (hrule : t.rule? r = some rule) (hdrop : (top :: below).drop rule.size = p :: rest)
    (hgoto : ∀ q, t.cell p.state rule.lhs ≠ .goto q) :
    Fails t c ls (.missingGoto p.state rule.lhs)
  | unexpected {top : Frame} {below : List Frame} (hs : c.stack = top :: below)
    (hcell : t.cell top.state c.lookahead.terminal = .error ∨
      ∃ q, t.cell top.state c.lookahead.terminal = .goto q) (hls : movesOf ls = []) :
    Fails t c ls (.unexpected top.state c.lookahead.terminal
      ((t.symbolName? c.lookahead.terminal).getD "") c.lookahead.token.location)

/-- What a step can come to. -/
inductive Comes (t : Table) (c : Config ε) : List Lookup × Outcome ε → Prop
  | next {m : Move} {c' : Config ε} {ls : List Lookup} (h : Makes t c m c')
    (hls : movesOf ls = [m]) : Comes t c (ls, .next c')
  | accepted {top : Frame} {below : List Frame} {ls : List Lookup} (hs : c.stack = top :: below)
    (hcell : t.cell top.state c.lookahead.terminal = .accept) (hls : movesOf ls = []) :
    Comes t c (ls, .accepted (top.node.getD (.block c.lookahead.token.location [])))
  | failed {ls : List Lookup} {e : Error ε} (h : Fails t c ls e) : Comes t c (ls, .failed e)

/-- **A step makes one move, accepts or fails.** -/
theorem comes_step (t : Table) (c : Config ε) : Comes t c (step t c) := by
  obtain ⟨stack, a, input⟩ := c
  unfold step
  split
  · next hstack => exact .failed (.nothing hstack)
  next top below hstack =>
  obtain rfl : stack = top :: below := hstack
  dsimp only
  split
  · next q hcell =>
    unfold shift
    split
    · next e hread => exact .failed (.read rfl hcell hread)
    · next a' input' hread =>
      exact .next (.shift hcell hread) (by simp [movesOf, Lookup.move?, hcell])
  · next r hcell =>
    unfold reduce
    split
    · next hrule => exact .failed (.unknownRule rfl hcell hrule)
    next rule hrule =>
    dsimp only
    split
    · next hdrop => exact .failed (.emptied rfl hcell hrule hdrop)
    next p rest hdrop =>
    split
    · next e haction => exact .failed (.action rfl hcell hrule hdrop haction)
    next node haction =>
    split
    · next q hq =>
      have hgoto : t.cell p.state rule.lhs = .goto q := by
        cases hc : t.cell p.state rule.lhs <;> simp_all [Cell.goto?]
      exact .next (.reduce hcell hrule hdrop haction hgoto)
        (by simp [movesOf, Lookup.move?, hcell, hgoto])
    · next hnone =>
      exact .failed (.missingGoto rfl hcell hrule hdrop fun q hgoto => by
        simp [hgoto, Cell.goto?] at hnone)
  · next hcell => exact .accepted rfl hcell (by simp [movesOf, Lookup.move?, hcell])
  · next hcell =>
    exact .failed (.unexpected rfl (.inl hcell) (by simp [movesOf, Lookup.move?, hcell]))
  · next q hcell =>
    exact .failed (.unexpected rfl (.inr ⟨q, hcell⟩) (by simp [movesOf, Lookup.move?, hcell]))

theorem exists_makes_of_step {c c' : Config ε} {ls : List Lookup}
    (h : step t c = (ls, .next c')) : ∃ m, movesOf ls = [m] ∧ Makes t c m c' := by
  have hc := comes_step t c
  rw [h] at hc
  cases hc with
  | next h hls => exact ⟨_, hls, h⟩

/-- What a step that accepts has found. -/
theorem exists_of_step_accepted {c : Config ε} {ls : List Lookup} {node : Ast}
    (h : step t c = (ls, .accepted node)) :
    ∃ top below, c.stack = top :: below ∧ t.cell top.state c.lookahead.terminal = .accept ∧
      movesOf ls = [] ∧ node = top.node.getD (.block c.lookahead.token.location []) := by
  have hc := comes_step t c
  rw [h] at hc
  cases hc with
  | accepted hs hcell hls => exact ⟨_, _, hs, hcell, hls, rfl⟩

/-- Why a step has failed. -/
theorem fails_of_step {c : Config ε} {ls : List Lookup} {e : Error ε}
    (h : step t c = (ls, .failed e)) : Fails t c ls e := by
  have hc := comes_step t c
  rw [h] at hc
  cases hc with
  | failed h => exact h

/-- A move is made by a step. -/
theorem Makes.exists_step {c c' : Config ε} {m : Move} (h : Makes t c m c') :
    ∃ ls, step t c = (ls, .next c') ∧ movesOf ls = [m] := by
  cases h with
  | @shift top below a input q a' input' hcell hread =>
    refine ⟨[⟨top.state, a.terminal, .shift q⟩], ?_, by simp [movesOf, Lookup.move?]⟩
    simp only [step, hcell, Parser.shift, hread]
  | @reduce top p below rest a input r rule node q hcell hrule hdrop haction hgoto =>
    refine ⟨[⟨top.state, a.terminal, .reduce r⟩, ⟨p.state, rule.lhs, .goto q⟩], ?_,
      by simp [movesOf, Lookup.move?]⟩
    simp only [step, hcell, Parser.reduce, hrule, hdrop, haction, hgoto, Cell.goto?]

/-- On the states, a move is one of the table. -/
theorem Makes.move?_eq {c c' : Config ε} {m : Move} (h : Makes t c m c') :
    t.move? c.lookahead.terminal c.states = some (m, c'.states) := by
  cases h with
  | shift hcell hread => exact Table.move?_of_shift hcell
  | @reduce top p below rest a input r rule node q hcell hrule hdrop haction hgoto =>
    refine Table.move?_of_reduce hcell hrule ?_ hgoto
    have h := congrArg (List.map Frame.state) hdrop
    rwa [List.map_drop] at h

/-- A shift of the table is made, if the next token can be read. -/
theorem makes_of_move?_shift {c : Config ε} {x : SymbolId} {s' : List StateId} {a : Lookahead}
    {input : Input ε} (h : t.move? c.lookahead.terminal c.states = some (.shift x, s'))
    (hread : c.input.read t = .ok (a, input)) :
    ∃ c', Makes t c (.shift x) c' ∧ c'.states = s' ∧ c'.lookahead = a ∧ c'.input = input := by
  obtain ⟨stack, a₀, input₀⟩ := c
  obtain ⟨q, s₀, q', hs, hcell, rfl, rfl⟩ := Table.exists_of_move?_shift h
  obtain ⟨top, below, rfl, rfl, rfl⟩ := List.map_eq_cons_iff.1 hs
  exact ⟨_, .shift hcell hread, rfl, rfl, rfl⟩

/-- A reduction of the table is made, unless its action fails. -/
theorem makes_of_move?_reduce {c : Config ε} {r : RuleId} {s' : List StateId}
    (h : t.move? c.lookahead.terminal c.states = some (.reduce r, s')) :
    (∃ c', Makes t c (.reduce r) c' ∧ c'.states = s' ∧ c'.lookahead = c.lookahead ∧
      c'.input = c.input) ∨
      ∃ ls e, step t c = (ls, .failed (.action e)) ∧ movesOf ls = [.reduce r] := by
  obtain ⟨stack, a, input⟩ := c
  obtain ⟨q, s₀, rule, p, below, q', hs, hcell, hrule, hdrop, hgoto, rfl⟩ :=
    Table.exists_of_move?_reduce h
  obtain ⟨top, frames, rfl, rfl, rfl⟩ := List.map_eq_cons_iff.1 hs
  have hmap : ((top :: frames).drop rule.size).map Frame.state = p :: below := by
    rw [List.map_drop]
    exact hdrop
  obtain ⟨frame, rest, hframes, rfl, rfl⟩ := List.map_eq_cons_iff.1 hmap
  cases haction : rule.action.reduce (((top :: frames).take rule.size).reverse.map Frame.node)
      a.token.location with
  | ok node => exact .inl ⟨_, .reduce hcell hrule hframes haction hgoto, rfl, rfl, rfl⟩
  | error e =>
    refine .inr ⟨[⟨top.state, a.terminal, .reduce r⟩], e, ?_, by simp [movesOf, Lookup.move?]⟩
    simp only [step, hcell, reduce, hrule, hframes, haction]

/-- Where the table accepts, a step accepts. -/
theorem exists_step_accepted {c : Config ε} {q : StateId} {s : List StateId}
    (hs : c.states = q :: s) (hcell : t.cell q c.lookahead.terminal = .accept) :
    ∃ node ls, step t c = (ls, .accepted node) ∧ movesOf ls = [] := by
  obtain ⟨stack, a, input⟩ := c
  obtain ⟨top, below, rfl, rfl, rfl⟩ := List.map_eq_cons_iff.1 hs
  exact ⟨top.node.getD (.block a.token.location []), [⟨top.state, a.terminal, .accept⟩],
    by simp only [step, hcell], by simp [movesOf, Lookup.move?]⟩

/-- The stage that a step goes on to. -/
def Outcome.next? : Outcome ε → Option (Config ε)
  | .next c => some c
  | _ => none

theorem Outcome.eq_next_of_next? {o : Outcome ε} {c : Config ε} (h : o.next? = some c) :
    o = .next c := by
  cases o with
  | next c' => exact congrArg _ (Option.some.inj h)
  | accepted | failed => exact nomatch h

/-- The outcome of a step that ends a run. -/
def Outcome.ofAnswer : Answer ε → Outcome ε
  | .ok node => .accepted node
  | .error e => .failed e

/-! ## Runs -/

/-- Moves one after the other. -/
inductive Reaches (t : Table) : Config ε → List Move → Config ε → Prop
  | refl (c : Config ε) : Reaches t c [] c
  | head {c c' c'' : Config ε} {m : Move} {ms : List Move} (h : Makes t c m c')
    (hr : Reaches t c' ms c'') : Reaches t c (m :: ms) c''

/-- A run that ends has come to a step that accepts or fails. -/
theorem exists_reaches_of_runFrom {fuel : Nat} {c : Config ε} {lookups lookups' : List Lookup}
    {answer : Answer ε} (h : runFrom t fuel c lookups = (lookups', some answer)) :
    ∃ ms c' ls, Reaches t c ms c' ∧ step t c' = (ls, .ofAnswer answer) ∧
      movesOf lookups'.reverse = movesOf lookups.reverse ++ (ms ++ movesOf ls) := by
  induction fuel generalizing c lookups with
  | zero => exact nomatch (Prod.mk.inj h).2
  | succ fuel ih =>
    unfold runFrom at h
    cases hstep : step t c with
    | mk ls outcome =>
    rw [hstep] at h
    cases outcome with
    | next c' =>
      obtain ⟨m, hm, hmakes⟩ := exists_makes_of_step hstep
      obtain ⟨ms, c'', ls', hr, hstep', hmoves⟩ := ih h
      refine ⟨m :: ms, c'', ls', .head hmakes hr, hstep', ?_⟩
      rw [hmoves, List.reverse_append, List.reverse_reverse, movesOf_append, hm]
      simp
    | accepted node | failed e =>
      obtain ⟨rfl, hanswer⟩ := Prod.mk.inj h
      obtain rfl := Option.some.inj hanswer
      exact ⟨[], c, ls, .refl c, hstep, by simp [movesOf_append]⟩

/-- A run ends in its first token, or where moves from there lead to a step that accepts or
fails. -/
theorem exists_reaches_of_run {fuel : Nat} {tokens : List (Except ε Token)} {lookups : List Lookup}
    {answer : Answer ε} (h : run t fuel tokens = (lookups, some answer)) :
    (∃ e, answer = .error e ∧ Input.read t ⟨tokens, .start⟩ = .error e) ∨
      ∃ c₀ ms c ls, initial t tokens = .ok c₀ ∧ Reaches t c₀ ms c ∧
        step t c = (ls, .ofAnswer answer) ∧ movesOf lookups = ms ++ movesOf ls := by
  unfold run at h
  split at h
  · next e hinitial =>
    obtain rfl := Option.some.inj (Prod.mk.inj h).2
    rcases Except.bind_eq_error hinitial with hread | ⟨_, -, hread⟩
    · exact .inl ⟨e, rfl, hread⟩
    · exact nomatch hread
  · next c₀ hinitial =>
    obtain ⟨rfl, hanswer⟩ := Prod.mk.inj h
    obtain ⟨ms, c, ls, hr, hstep, hmoves⟩ := exists_reaches_of_runFrom (Prod.ext rfl hanswer)
    exact .inr ⟨c₀, ms, c, ls, hinitial, hr, hstep, hmoves⟩

/-- A run goes where its moves lead. -/
theorem Reaches.runFrom_eq {c c' : Config ε} {ms : List Move} (h : Reaches t c ms c') (fuel : Nat)
    (lookups : List Lookup) :
    ∃ lookups', runFrom t (ms.length + fuel) c lookups = runFrom t fuel c' lookups' ∧
      movesOf lookups'.reverse = movesOf lookups.reverse ++ ms := by
  induction h generalizing lookups with
  | refl c => exact ⟨lookups, by simp, by simp⟩
  | @head c c' c'' m ms h _ ih =>
    obtain ⟨ls, hstep, hm⟩ := h.exists_step
    obtain ⟨lookups', hrun, hmoves⟩ := ih (ls.reverse ++ lookups)
    refine ⟨lookups', ?_, ?_⟩
    · rw [← hrun, List.length_cons, Nat.succ_add, runFrom, hstep]
    · rw [hmoves, List.reverse_append, List.reverse_reverse, movesOf_append, hm]
      simp

/-- A run of a parser is one of its table, on the terminals it shifts and its last lookahead. -/
theorem Reaches.runs {c c' : Config ε} {ms : List Move} (h : Reaches t c ms c')
    (w : List SymbolId) :
    t.Runs c.states (ms.filterMap Move.terminal? ++ c'.lookahead.terminal :: w) ms c'.states
      (c'.lookahead.terminal :: w) := by
  -- what is ahead begins with the lookahead at hand
  suffices hv : ∃ v, ms.filterMap Move.terminal? ++ c'.lookahead.terminal :: w =
      c.lookahead.terminal :: v ∧ t.Runs c.states (c.lookahead.terminal :: v) ms c'.states
        (c'.lookahead.terminal :: w) by
    obtain ⟨v, hv, hr⟩ := hv
    rwa [hv]
  induction h with
  | refl c => exact ⟨w, rfl, .refl _ _⟩
  | @head c c₁ c' m ms hm _ ih =>
    obtain ⟨v, hv, hr⟩ := ih
    have hmove := hm.move?_eq
    cases hm with
    | shift => exact ⟨_, congrArg (_ :: ·) hv, .shift hmove (hv ▸ hr)⟩
    | reduce => exact ⟨v, hv, .reduce hmove hr⟩

/-- What a run answers where its moves lead to a step that accepts or fails. -/
theorem Reaches.exists_answer {c c' : Config ε} {ms : List Move} (h : Reaches t c ms c')
    {ls : List Lookup} (answer : Answer ε)
    (hstep : step t c' = (ls, .ofAnswer answer)) {fuel : Nat} (hfuel : ms.length < fuel) :
    ∃ lookups, runFrom t fuel c [] = (lookups, some answer) ∧
      movesOf lookups.reverse = ms ++ movesOf ls := by
  obtain ⟨n, rfl⟩ := Nat.exists_eq_add_of_lt hfuel
  obtain ⟨lookups, hrun, hmoves⟩ := h.runFrom_eq (n + 1) []
  refine ⟨ls.reverse ++ lookups, ?_, ?_⟩
  · rw [Nat.add_assoc, hrun, runFrom, hstep]
    cases answer <;> rfl
  · rw [List.reverse_append, List.reverse_reverse, movesOf_append, hmoves]
    rfl

/-! ## The input -/

/-- An input fails for what stands in it. -/
theorem Input.eq_of_read_error {input : Input ε} {e : Error ε} (h : input.read t = .error e) :
    (∃ inner, e = .lexer inner) ∨ ∃ name location, e = .unknownTerminal name location := by
  rcases Except.bind_eq_error h with hnext | ⟨⟨token, input'⟩, -, hread⟩
  · unfold Input.next at hnext
    split at hnext
    · exact nomatch hnext
    · exact .inl ⟨_, (Except.error.inj hnext).symm⟩
    · exact nomatch hnext
  · dsimp only at hread
    split at hread
    · exact nomatch hread
    · exact .inr ⟨_, _, (Except.error.inj hread).symm⟩

/-- Reads the lookaheads from the input, one after the other. -/
inductive Input.Reads (t : Table) : Input ε → List Lookahead → Input ε → Prop
  | nil (input : Input ε) : Reads t input [] input
  | cons {input input' input'' : Input ε} {a : Lookahead} {as : List Lookahead}
    (h : input.read t = .ok (a, input')) (hr : Reads t input' as input'') :
    Reads t input (a :: as) input''

theorem Input.Reads.append {input input' input'' : Input ε} {as as' : List Lookahead}
    (h : Reads t input as input') (h' : Reads t input' as' input'') :
    Reads t input (as ++ as') input'' := by
  induction h with
  | nil => exact h'
  | cons h _ ih => exact .cons h (ih h')

/-- The place of the last token. -/
def lastLocation (tokens : List (Except ε Token)) (start : Location) : Location :=
  tokens.foldl (fun l token => match token with
    | .ok token => token.location
    | .error _ => l) start

/-- The tokens of an input, and end tokens for ever at the place of the last one. -/
def streamed (tokens : List (Except ε Token)) (start : Location) (n : Nat) : Except ε Token :=
  (tokens[n]?).getD (.ok (.endOfInput (lastLocation tokens start)))

theorem states_of_initial {tokens : List (Except ε Token)} {c : Config ε}
    (h : initial t tokens = .ok c) : c.states = [StateId.initial] := by
  obtain ⟨⟨a, input⟩, -, h⟩ := Except.bind_eq_ok h
  obtain rfl := Except.ok.inj h
  rfl

/-- What is read is what the input holds, as terminals of the table. -/
theorem Input.Reads.streamed_eq {tokens : List (Except ε Token)} {last : Location}
    {as : List Lookahead} {input : Input ε} (h : Reads t ⟨tokens, last⟩ as input) :
    ∀ n a, as[n]? = some a → streamed tokens last n = .ok a.token ∧
      t.terminal? a.token.kind.terminal = some a.terminal := by
  generalize hi : (⟨tokens, last⟩ : Input ε) = i at h
  induction h generalizing tokens last with
  | nil => exact nofun
  | @cons i i' i'' a as hread _ ih =>
    subst hi
    -- the token at hand, and the stream behind it
    have hfirst : streamed tokens last 0 = .ok a.token ∧
        t.terminal? a.token.kind.terminal = some a.terminal ∧
        ∀ n, streamed i'.rest i'.last n = streamed tokens last (n + 1) := by
      obtain ⟨⟨token, j⟩, hnext, hread⟩ := Except.bind_eq_ok hread
      dsimp only at hread
      split at hread
      · next x hx =>
        obtain ⟨rfl, rfl⟩ := Prod.mk.inj (Except.ok.inj hread)
        cases tokens with
        | nil =>
          obtain ⟨rfl, rfl⟩ := Prod.mk.inj (Except.ok.inj hnext)
          exact ⟨rfl, hx, fun n => rfl⟩
        | cons first tokens =>
          cases first with
          | error e => exact nomatch hnext
          | ok first =>
            obtain ⟨rfl, rfl⟩ := Prod.mk.inj (Except.ok.inj hnext)
            exact ⟨rfl, hx, fun n => rfl⟩
      · exact nomatch hread
    intro n b hb
    cases n with
    | zero =>
      obtain rfl := Option.some.inj hb
      exact ⟨hfirst.1, hfirst.2.1⟩
    | succ n =>
      rw [← hfirst.2.2]
      exact ih rfl n b hb

/-- The lookaheads of a list of tokens and of the end of the input behind it. -/
theorem Input.exists_reads_of_tokens (hend : t.terminal? Terminal.endOfInput =
    some SymbolId.endOfInput) {tokens : List Token} {w : List SymbolId}
    (h : tokens.map (fun token => t.terminal? token.kind.terminal) = w.map some)
    (last : Location) :
    ∃ as input, Reads (ε := ε) t ⟨tokens.map .ok, last⟩ as input ∧
      as.map Lookahead.terminal = w ++ [SymbolId.endOfInput] := by
  induction tokens generalizing w last with
  | nil =>
    obtain rfl : w = [] := by simpa using h.symm
    refine ⟨[⟨.endOfInput last, SymbolId.endOfInput⟩], ⟨[], last⟩, .cons ?_ (.nil _), rfl⟩
    simp [Input.read, Input.next, Token.endOfInput, Token.Kind.terminal, hend, bind, Except.bind]
  | cons token tokens ih =>
    cases w with
    | nil => exact nomatch h
    | cons x w =>
      obtain ⟨hx, hw⟩ := List.cons.inj h
      obtain ⟨as, input, hr, has⟩ := ih hw token.location
      refine ⟨⟨token, x⟩ :: as, input, .cons ?_ hr, congrArg (x :: ·) has⟩
      simp [Input.read, Input.next, hx, bind, Except.bind]

/-- A parser makes the moves of its table, as far as the actions and the input go. -/
theorem exists_reaches_of_runs {c : Config ε} {s : List StateId} {x y : SymbolId}
    {w w' : List SymbolId} {ms : List Move} {as : List Lookahead} {input : Input ε}
    (h : t.Runs c.states (x :: w) ms s (y :: w')) (hx : c.lookahead.terminal = x)
    (hreads : Input.Reads t c.input as input) (has : as.map Lookahead.terminal = w) :
    (∃ c', Reaches t c ms c' ∧ c'.states = s ∧ c'.lookahead.terminal = y) ∨
      ∃ ms₁ r ms₂ c' ls e, ms = ms₁ ++ .reduce r :: ms₂ ∧ Reaches t c ms₁ c' ∧
        step t c' = (ls, .failed (.action e)) ∧ movesOf ls = [.reduce r] := by
  generalize hs : c.states = s₀ at h
  generalize hv : x :: w = v at h
  generalize hv' : y :: w' = v' at h
  induction h generalizing c x w as with
  | refl s₀ v =>
    subst hs hv
    obtain ⟨rfl, -⟩ := List.cons.inj hv'
    exact .inl ⟨c, .refl c, rfl, hx⟩
  | @shift s₀ s₁ s₂ x' v v' ms hmove hrest ih =>
    obtain ⟨rfl, rfl⟩ := List.cons.inj hv
    subst hs hx has
    cases hreads with
    | nil =>
      -- something is ahead in the end, so there is after the shift
      cases hrest
      exact nomatch hv'
    | cons hread hreads =>
      obtain ⟨c', hmakes, rfl, rfl, rfl⟩ := makes_of_move?_shift hmove hread
      rcases ih rfl hreads rfl rfl rfl hv' with
        ⟨c'', hr, hs, hy⟩ | ⟨ms₁, r, ms₂, c'', ls, e, rfl, hr, h⟩
      · exact .inl ⟨c'', .head hmakes hr, hs, hy⟩
      · exact .inr ⟨_ :: ms₁, r, ms₂, c'', ls, e, rfl, .head hmakes hr, h⟩
  | @reduce s₀ s₁ s₂ x' r v v' ms hmove _ ih =>
    obtain ⟨rfl, rfl⟩ := List.cons.inj hv
    subst hs hx
    rcases makes_of_move?_reduce hmove with ⟨c', hmakes, rfl, hl, hi⟩ | ⟨ls, e, hstep, hls⟩
    · rcases ih (congrArg Lookahead.terminal hl) (hi ▸ hreads) has rfl rfl hv' with
        ⟨c'', hr, hs, hy⟩ | ⟨ms₁, r', ms₂, c'', ls, e, rfl, hr, h⟩
      · exact .inl ⟨c'', .head hmakes hr, hs, hy⟩
      · exact .inr ⟨_ :: ms₁, r', ms₂, c'', ls, e, rfl, .head hmakes hr, h⟩
    · exact .inr ⟨[], r, ms, c, ls, e, rfl, .refl c, hstep, hls⟩

end ShiftReduce.Parser

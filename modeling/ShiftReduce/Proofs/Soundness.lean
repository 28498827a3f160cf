import ShiftReduce.Proofs.Run

/-!
# Proofs/Soundness — what a parser has done when it accepts

`Forest.eval` evaluates derivation trees bottom-up, as the actions of a grammar say.  While a parser
runs, its stack holds the values of a forest over the tokens read so far (`Evaluated`), and each
step keeps that.  When it accepts, the forest is one derivation tree of the start symbol.
-/

namespace ShiftReduce

open ShiftReduce.Derivation Collection ShiftReduce.Parser

/-! ## Evaluation -/

namespace Forest

/-- The place of the first leaf; `next` is the place behind the forest. -/
def firstLocation (F : Forest Lookahead) (next : Location) : Location :=
  (F.yield.head?.map (·.token.location)).getD next

/-- The values of the trees, `next` being the place of the token behind them: that of a leaf is its
token, and that of a rule is what its action makes of the values of the children, at the place of
the token behind the last of them. -/
def eval (rules : Array Rule) :
    Forest Lookahead → Location → Except Action.Error (List (Option Ast))
  | nil, _ => .ok []
  | leaf init a, _ => do
    let values ← eval rules init a.token.location
    .ok (values ++ [some (.leaf a.token)])
  | node init r children, next => do
    let values ← eval rules init (children.firstLocation next)
    let arguments ← eval rules children next
    match rules[r]? with
    | none => .ok values
    | some rule =>
      let value ← rule.action.reduce arguments next
      .ok (values ++ [value])

variable {rules : Array Rule} {terminalCount : Nat}

theorem firstLocation_of_yield {F G H : Forest Lookahead} (h : H.yield = F.yield ++ G.yield)
    (next : Location) : H.firstLocation next = F.firstLocation (G.firstLocation next) := by
  unfold firstLocation
  rw [h]
  cases F.yield <;> rfl

theorem eval_leaf {F : Forest Lookahead} {a : Lookahead} {values : List (Option Ast)}
    (h : F.eval rules a.token.location = .ok values) (next : Location) :
    (F.leaf a).eval rules next = .ok (values ++ [some (.leaf a.token)]) := by
  rw [eval, h]
  rfl

theorem eval_node {F children : Forest Lookahead} {r : RuleId} {rule : Rule} {next : Location}
    {values arguments : List (Option Ast)} {value : Option Ast} (hr : rules[r]? = some rule)
    (h : F.eval rules (children.firstLocation next) = .ok values)
    (hc : children.eval rules next = .ok arguments)
    (hv : rule.action.reduce arguments next = .ok value) :
    (F.node r children).eval rules next = .ok (values ++ [value]) := by
  simp only [eval, h, hc, hr, hv, bind, Except.bind]

/-- The parts of the value of a rule. -/
theorem exists_of_eval_node {F children : Forest Lookahead} {r : RuleId} {rule : Rule}
    {next : Location} {values : List (Option Ast)} (hr : rules[r]? = some rule)
    (h : (F.node r children).eval rules next = .ok values) :
    ∃ vs arguments value, F.eval rules (children.firstLocation next) = .ok vs ∧
      children.eval rules next = .ok arguments ∧ rule.action.reduce arguments next = .ok value ∧
      values = vs ++ [value] := by
  obtain ⟨vs, hF, h⟩ := Except.bind_eq_ok h
  obtain ⟨arguments, hc, h⟩ := Except.bind_eq_ok h
  rw [hr] at h
  obtain ⟨value, hv, h⟩ := Except.bind_eq_ok h
  exact ⟨vs, arguments, value, hF, hc, hv, (Except.ok.inj h).symm⟩

/-- The values of forests side by side. -/
theorem eval_append {ys : List SymbolId} {F G : Forest Lookahead}
    (hG : G.Parses rules terminalCount Lookahead.terminal ys) {next : Location}
    {values : List (Option Ast)} (h : (F.append G).eval rules next = .ok values) :
    ∃ vs ws, F.eval rules (G.firstLocation next) = .ok vs ∧ G.eval rules next = .ok ws ∧
      values = vs ++ ws := by
  induction hG generalizing next values with
  | nil => exact ⟨values, [], h, rfl, by simp⟩
  | @leaf ys G a hG ha ih =>
    obtain ⟨us, hus, h⟩ := Except.bind_eq_ok h
    obtain rfl := Except.ok.inj h
    obtain ⟨vs, ws, hF, hG, rfl⟩ := ih hus
    refine ⟨vs, _, ?_, eval_leaf hG next, List.append_assoc _ _ _⟩
    rwa [firstLocation_of_yield (F := G) (G := .leaf .nil a) rfl]
  | @node ys G children r rule hG hr hc ih _ =>
    obtain ⟨us, arguments, value, hus, hchildren, hvalue, rfl⟩ := exists_of_eval_node hr h
    obtain ⟨vs, ws, hF, hG, rfl⟩ := ih hus
    refine ⟨vs, _, ?_, eval_node hr hG hchildren hvalue, List.append_assoc _ _ _⟩
    rwa [firstLocation_of_yield (F := G) (G := children) rfl]

/-- There is a value for each tree. -/
theorem Parses.length_eval {xs : List SymbolId} {F : Forest Lookahead} {next : Location}
    {values : List (Option Ast)} (h : F.Parses rules terminalCount Lookahead.terminal xs)
    (hv : F.eval rules next = .ok values) : values.length = xs.length := by
  induction h generalizing next values with
  | nil =>
    obtain rfl := Except.ok.inj hv
    rfl
  | leaf _ _ ih =>
    obtain ⟨vs, hvs, hv⟩ := Except.bind_eq_ok hv
    obtain rfl := Except.ok.inj hv
    simpa using ih hvs
  | node _ hr _ ih _ =>
    obtain ⟨vs, arguments, value, hvs, -, -, rfl⟩ := exists_of_eval_node hr hv
    simpa using ih hvs

end Forest

/-! ## What a stack holds -/

namespace Parser

variable {ε : Type} {t : Table} {rules : Array Rule} {terminalCount : Nat} {c : Collection}
  {accept start symbolCount : Nat} {tokens : List (Except ε Token)}

/-- The stack is a walk from the initial state, and holds the values of a forest over the tokens
that were read before the lookahead. -/
structure Evaluated (t : Table) (rules : Array Rule) (terminalCount : Nat) (c : Collection)
    (tokens : List (Except ε Token)) (ms : List Move) (config : Config ε) (xs : List SymbolId)
    (F : Forest Lookahead) (values : List (Option Ast)) : Prop where
  stack : Stack c StateId.initial config.states xs
  parses : F.Parses rules terminalCount Lookahead.terminal xs
  moves : F.moves Lookahead.terminal = ms
  eval : F.eval rules config.lookahead.token.location = .ok values
  nodes : config.stack.map Frame.node = values.reverse ++ [none]
  reads : Input.Reads t ⟨tokens, .start⟩ (F.yield ++ [config.lookahead]) config.input

theorem evaluated_initial {config : Config ε} (h : initial t tokens = .ok config) :
    Evaluated t rules terminalCount c tokens [] config [] .nil [] := by
  obtain ⟨⟨a, input⟩, hread, h⟩ := Except.bind_eq_ok h
  obtain rfl := Except.ok.inj h
  exact ⟨.bottom, .nil, rfl, rfl, rfl, .cons hread (.nil input)⟩

/-- **A move keeps the stack evaluated.** -/
theorem Evaluated.makes (hf : t.Follows rules terminalCount c) (hc : Canonical rules c)
    (ha : Augmented rules accept start symbolCount terminalCount) {ms : List Move} {m : Move}
    {config config' : Config ε} {xs : List SymbolId} {F : Forest Lookahead}
    {values : List (Option Ast)}
    (h : Evaluated t rules terminalCount c tokens ms config xs F values)
    (hm : Makes t config m config') :
    ∃ xs' F' values',
      Evaluated t rules terminalCount c tokens (ms ++ [m]) config' xs' F' values' := by
  obtain ⟨hstack, hparses, rfl, heval, hnodes, hreads⟩ := h
  have hmove := hm.move?_eq
  cases hm with
  | @shift top below a input q a' input' hcell hread =>
    obtain ⟨hx, he⟩ := hf.shift hcell
    refine ⟨_, F.leaf a, _, hstack.push he, .leaf hparses hx, rfl, Forest.eval_leaf heval _, ?_, ?_⟩
    · simp [hnodes]
    · exact hreads.append (.cons hread (.nil input'))
  | @reduce top p below rest a input r rule node q hcell hrule hdrop haction hgoto =>
    obtain ⟨q₀, s₀, rule', before, p', below', q', -, -, hr, rfl, hdrop', hbelow, -, -, he, hs'⟩ :=
      hf.of_reduce hc ha hstack hmove
    obtain rfl : Automaton.reduction rule' = rule := by
      rw [hf.rule?, hr] at hrule
      exact Option.some.inj hrule
    obtain ⟨F, children, rfl, hF, hchildren⟩ := hparses.exists_append
    obtain ⟨vs, arguments, hvs, harguments, rfl⟩ := Forest.eval_append hchildren heval
    -- the frames of the right-hand side hold the values of the children
    have hlength : arguments.length = rule'.rhs.length := hchildren.length_eval harguments
    have hnodes : (top :: below).map Frame.node = arguments.reverse ++ (vs.reverse ++ [none]) := by
      simpa using hnodes
    have htake : ((top :: below).take rule'.rhs.length).reverse.map Frame.node = arguments := by
      rw [List.map_reverse, List.map_take, hnodes, List.take_left' (by simpa using hlength),
        List.reverse_reverse]
    have hrest : (p :: rest).map Frame.node = vs.reverse ++ [none] := by
      rw [← hdrop, List.map_drop, hnodes]
      exact List.drop_left' (by rw [List.length_reverse]; exact hlength)
    rw [show (Automaton.reduction rule').size = rule'.rhs.length from rfl, htake] at haction
    refine ⟨before ++ [rule'.lhs], F.node r children, vs ++ [node], ?_, .node hF hr hchildren, ?_,
      Forest.eval_node hr hvs harguments haction, ?_, by simpa [Forest.yield] using hreads⟩
    · rw [hs']
      exact hbelow.push he
    · simp [Forest.moves]
    · simpa using hrest

/-- **A run keeps the stack evaluated.** -/
theorem Evaluated.reaches (hf : t.Follows rules terminalCount c) (hc : Canonical rules c)
    (ha : Augmented rules accept start symbolCount terminalCount) {ms ms' : List Move}
    {config config' : Config ε} {xs : List SymbolId} {F : Forest Lookahead}
    {values : List (Option Ast)}
    (h : Evaluated t rules terminalCount c tokens ms config xs F values)
    (hr : Reaches t config ms' config') :
    ∃ xs' F' values',
      Evaluated t rules terminalCount c tokens (ms ++ ms') config' xs' F' values' := by
  induction hr generalizing ms xs F values with
  | refl => exact ⟨xs, F, values, by simpa using h⟩
  | @head _ _ _ m ms' hm _ ih =>
    obtain ⟨xs', F', values', h'⟩ := h.makes hf hc ha hm
    simpa using ih h'

/-- The start symbol alone is on a stack whose top state accepts. -/
theorem Evaluated.eq_of_accept (hf : t.Follows rules terminalCount c) (hc : Canonical rules c)
    (ha : Augmented rules accept start symbolCount terminalCount) {ms : List Move}
    {config : Config ε} {xs : List SymbolId} {F : Forest Lookahead} {values : List (Option Ast)}
    (h : Evaluated t rules terminalCount c tokens ms config xs F values) {top : Frame}
    {below : List Frame} (hstack : config.stack = top :: below)
    (hcell : t.cell top.state config.lookahead.terminal = .accept) :
    xs = [start] ∧ values = [top.node] := by
  have hs : Stack c StateId.initial (top.state :: below.map Frame.state) xs := by
    have := h.stack
    rwa [Config.states, hstack] at this
  obtain ⟨-, hholds⟩ := hf.accept hcell
  have hnodes : top.node :: below.map Frame.node = values.reverse ++ [none] := by
    have := h.nodes
    rwa [hstack] at this
  cases hbelow : below.map Frame.state with
  | nil =>
    -- the initial state holds nothing completed
    rw [hbelow] at hs
    obtain rfl : xs = [] := List.length_eq_zero_iff.1 (Nat.succ.inj hs.length_eq).symm
    obtain h₀ := walk_nil_iff.1 hs.walk
    exact absurd (hc.dot_eq_zero_of_holds_initial (h₀ ▸ hholds)) (Nat.succ_ne_zero 0)
  | cons p rest =>
    rw [hbelow] at hs
    obtain ⟨rule, before, hr, rfl, hrest, hp, -⟩ := hs.of_drop hc ha hholds rfl
    obtain rfl := Option.some.inj (ha.start_rule.symm.trans hr)
    obtain rfl := hc.eq_initial_of_holds_start ha hp
    obtain ⟨rfl, rfl⟩ := hrest.of_initial hc
    refine ⟨rfl, ?_⟩
    obtain ⟨f, rfl, -⟩ := List.map_eq_singleton_iff.1 hbelow
    have hnodes : [top.node] ++ [f.node] = values.reverse ++ [none] := hnodes
    obtain ⟨hv, -⟩ := List.append_inj' hnodes rfl
    simpa using congrArg List.reverse hv.symm

/-- **A run that accepts has a tree of the start symbol on its stack**, and answers with its
value. -/
theorem exists_evaluated_of_run (hf : t.Follows rules terminalCount c) (hc : Canonical rules c)
    (ha : Augmented rules accept start symbolCount terminalCount) {fuel : Nat}
    {lookups : List Lookup} {node : Ast} (hrun : run t fuel tokens = (lookups, some (.ok node))) :
    ∃ (config : Config ε) (F : Forest Lookahead) (value : Option Ast),
      Evaluated t rules terminalCount c tokens (movesOf lookups) config [start] F [value] ∧
      config.lookahead.terminal = SymbolId.endOfInput ∧
      node = value.getD (.block config.lookahead.token.location []) := by
  rcases exists_reaches_of_run hrun with ⟨e, he, -⟩ | ⟨c₀, ms, c', ls, hinitial, hr, hstep, hmoves⟩
  · cases he
  obtain ⟨xs, F, values, he⟩ := (evaluated_initial hinitial).reaches hf hc ha hr
  obtain ⟨top, below, hstack, hcell, hls, hnode⟩ := exists_of_step_accepted hstep
  obtain ⟨rfl, rfl⟩ := he.eq_of_accept hf hc ha hstack hcell
  refine ⟨c', F, top.node, ?_, (hf.accept hcell).1, hnode⟩
  have hnone : movesOf ls = [] := hls ▸ rfl
  rwa [hmoves, hnone, List.append_nil]

end Parser

/-! ## Soundness -/

/-- What is true of a run of an automaton that has accepted `node`: the derivation tree `F`, with
`last` behind it, tells what the run has read, done and made. -/
structure Automaton.Accounts {ε : Type} (a : Automaton) (tokens : List (Except ε Token))
    (lookups : List Lookup) (node : Ast) (F : Forest Lookahead) (last : Lookahead) : Prop where
  /-- It is a tree of the start symbol. -/
  parses : F.Parses a.rules a.symbols.terminalCount Lookahead.terminal [a.grammar.start]
  /-- Its leaves and `last` are the tokens of the stream, from the first one on. -/
  streamed : ∀ n l, (F.yield ++ [last])[n]? = some l → streamed tokens .start n = .ok l.token ∧
    a.table.terminal? l.token.kind.terminal = some l.terminal
  endOfInput : last.terminal = SymbolId.endOfInput
  /-- The run has shifted its leaves and reduced by its rules, in post-order. -/
  moves : movesOf lookups = F.moves Lookahead.terminal
  derives : Derives (productions a.rules) [a.grammar.start] (F.yield.map Lookahead.terminal)
  /-- The reductions read backwards derive the sentence from the right. -/
  rightmost : Rightmost a.rules a.symbols.terminalCount [a.grammar.start]
    ((movesOf lookups).filterMap Move.rule?).reverse (F.yield.map Lookahead.terminal)
  /-- The node is the value of the tree. -/
  eval : ∃ value, F.eval a.rules last.token.location = .ok [value] ∧
    node = value.getD (.block last.token.location [])

/-- **Soundness**: a derivation tree of the start symbol accounts for every run that accepts, in
either mode, with conflicts or without. -/
theorem Automaton.exists_accounts_of_run {ε : Type} {config : Config} {registry : Registry}
    {source : String} {a : Automaton} (hmade : registry.Made)
    (h : generate config registry source = .ok a) {tokens : List (Except ε Token)} {fuel : Nat}
    {lookups : List Lookup} {node : Ast}
    (hrun : run a.table fuel tokens = (lookups, some (.ok node))) :
    ∃ F last, a.Accounts tokens lookups node F last := by
  obtain ⟨c, lookaheads, result, hp⟩ := parts_of_generate h
  obtain ⟨hreserves, accept, ha⟩ := reserves_of_readRules hmade hp.read
  have hc := canonical_of_augmented ha hp.canonical
  obtain ⟨config', F, value, he, hend, hnode⟩ :=
    exists_evaluated_of_run (hp.follows hreserves ha) hc ha hrun
  have hmoves : movesOf lookups = F.moves Lookahead.terminal := he.moves.symm
  refine ⟨F, config'.lookahead, he.parses, he.reads.streamed_eq, hend, hmoves, he.parses.derives,
    ?_, value, he.eval, hnode⟩
  rw [hmoves, ← Forest.reductions_eq]
  exact Forest.rightmost_of_parses he.parses

/-- A sum of two numbers has a derivation tree. -/
theorem Automaton.exists_accounts_of_run_sum : ∃ (a : Automaton) (tokens : List (Except Unit Token))
    (lookups : List Lookup) (node : Ast) (F : Forest Lookahead) (last : Lookahead),
    Registry.standard.Made ∧ generate {} .standard "s = s '+' NUM; s = NUM;" = .ok a ∧
    tokens = [.ok (.int 1 .start), .ok (.keyword "+" .start), .ok (.int 2 .start)] ∧
    run a.table 9 tokens = (lookups, some (.ok node)) ∧ a.Accounts tokens lookups node F last := by
  have hok : (generate {} .standard "s = s '+' NUM; s = NUM;").toOption.any (fun a =>
      (run a.table 9 (ε := Unit) [.ok (.int 1 .start), .ok (.keyword "+" .start),
        .ok (.int 2 .start)]).2.any (·.toOption.isSome)) = true := by decide +kernel
  obtain ⟨a, ha, hok⟩ := Except.exists_of_any_toOption hok
  obtain ⟨answer, hanswer, hsome⟩ := (Option.any_eq_true _ _).1 hok
  cases answer with
  | error e => exact nomatch hsome
  | ok node =>
    obtain ⟨F, last, h⟩ := exists_accounts_of_run .standard ha (Prod.ext rfl hanswer)
    exact ⟨a, _, _, node, F, last, .standard, ha, rfl, Prod.ext rfl hanswer, h⟩

end ShiftReduce

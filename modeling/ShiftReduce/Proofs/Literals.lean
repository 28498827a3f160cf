import ShiftReduce.Proofs.Expansion
import ShiftReduce.Proofs.Printing
import ShiftReduce.Proofs.Provenance

/-!
# Proofs/Literals — the tokens that elements match

The trees below a node of a rule stand one by one for the elements of the alternative that the rule
stems from (`Element.Matches`).  Literals, members of classes and token classes share the terminals,
which are told apart by their names only, as are the kinds of tokens.  So a literal matches the
keyword of its lexeme and nothing else, unless the lexeme is the name of a token class: then it
matches the tokens of that class (`exists_matches_of_run`, `exists_literal_of_number`).
-/

namespace ShiftReduce

open ShiftReduce.Derivation ShiftReduce.Parser

/-! ## The nodes of a forest -/

namespace Forest

variable {α : Type} {rules : Array Rule} {terminalCount : Nat} {terminal : α → SymbolId}

/-- The rules and what is below each of them, in post-order. -/
def nodes : Forest α → List (RuleId × Forest α)
  | nil => []
  | leaf init _ => init.nodes
  | node init r children => init.nodes ++ (children.nodes ++ [(r, children)])

/-- The trees from left to right, of which only those that are leaves are told. -/
def heads : Forest α → List (Option α)
  | nil => []
  | leaf init a => init.heads ++ [some a]
  | node init _ _ => init.heads ++ [none]

theorem mem_yield_of_mem_heads {F : Forest α} {a : α} (h : some a ∈ F.heads) : a ∈ F.yield := by
  induction F with
  | nil => cases h
  | leaf init b ih =>
    rcases List.mem_append.1 h with h | h
    · exact List.mem_append_left _ (ih h)
    · obtain rfl := Option.some.inj (List.mem_singleton.1 h)
      exact List.mem_append_right _ (List.mem_singleton_self a)
  | node init r children ih _ =>
    rcases List.mem_append.1 h with h | h
    · exact List.mem_append_left _ (ih h)
    · cases List.mem_singleton.1 h

/-- The leaves below a node are leaves of the forest. -/
theorem yield_subset_of_mem_nodes {F children : Forest α} {r : RuleId}
    (h : (r, children) ∈ F.nodes) : children.yield ⊆ F.yield := by
  induction F with
  | nil => cases h
  | leaf init b ih => exact fun a ha => List.mem_append_left _ (ih h ha)
  | node init r' children' ih ih' =>
    intro a ha
    rcases List.mem_append.1 h with h | h
    · exact List.mem_append_left _ (ih h ha)
    · refine List.mem_append_right _ ?_
      rcases List.mem_append.1 h with h | h
      · exact ih' h ha
      · obtain ⟨-, rfl⟩ := Prod.mk.inj (List.mem_singleton.1 h)
        exact ha

/-- The trees below a node have the symbols of its rule's right-hand side. -/
theorem Parses.exists_of_mem_nodes {xs : List SymbolId} {F children : Forest α} {r : RuleId}
    (h : F.Parses rules terminalCount terminal xs) (hmem : (r, children) ∈ F.nodes) :
    ∃ rule, rules[r]? = some rule ∧ children.Parses rules terminalCount terminal rule.rhs := by
  induction h with
  | nil => cases hmem
  | leaf _ _ ih => exact ih hmem
  | node _ hr hc ih ihc =>
    rcases List.mem_append.1 hmem with hmem | hmem
    · exact ih hmem
    · rcases List.mem_append.1 hmem with hmem | hmem
      · exact ihc hmem
      · obtain ⟨rfl, rfl⟩ := Prod.mk.inj (List.mem_singleton.1 hmem)
        exact ⟨_, hr, hc⟩

variable {accept start symbolCount : Nat}

/-- The start rule is nowhere in a tree of other symbols. -/
theorem Parses.ne_start (ha : Augmented rules accept start symbolCount terminalCount)
    {xs : List SymbolId} {F children : Forest α} {r : RuleId}
    (h : F.Parses rules terminalCount terminal xs) (hne : ∀ x ∈ xs, x ≠ accept)
    (hmem : (r, children) ∈ F.nodes) : r ≠ RuleId.start := by
  induction h with
  | nil => cases hmem
  | leaf _ _ ih => exact ih (List.forall_mem_append.1 hne).1 hmem
  | node _ hr _ ih ihc =>
    obtain ⟨hinit, hlhs⟩ := List.forall_mem_append.1 hne
    rcases List.mem_append.1 hmem with hmem | hmem
    · exact ih hinit hmem
    · rcases List.mem_append.1 hmem with hmem | hmem
      · exact ihc (ha.rhs_ne hr) hmem
      · obtain ⟨rfl, -⟩ := Prod.mk.inj (List.mem_singleton.1 hmem)
        rintro rfl
        obtain rfl := Option.some.inj (ha.start_rule.symm.trans hr)
        exact hlhs accept (List.mem_singleton_self accept) rfl

/-- A tree of a terminal is a leaf, and a tree of a nonterminal is none. -/
def Stands (terminalCount : Nat) (terminal : α → SymbolId) (x : SymbolId) : Option α → Prop
  | none => terminalCount ≤ x
  | some a => terminal a = x ∧ x < terminalCount

theorem Parses.forall₂_heads (ha : Augmented rules accept start symbolCount terminalCount)
    {xs : List SymbolId} {F : Forest α} (h : F.Parses rules terminalCount terminal xs) :
    List.Forall₂ (Stands terminalCount terminal) xs F.heads := by
  induction h with
  | nil => exact .nil
  | leaf _ hlt ih => exact List.rel_append ih (.cons ⟨rfl, hlt⟩ .nil)
  | node _ hr _ ih _ => exact List.rel_append ih (.cons (ha.le_lhs hr) .nil)

end Forest

/-! ## What a token may be -/

/-- A token that stands for the terminal of a name is the keyword of that name, or the name is that
of a class. -/
theorem Token.Kind.eq_keyword_or (kind : Token.Kind) :
    kind = .keyword kind.terminal ∨ kind.terminal ∈ Terminal.classes := by
  cases kind with
  | keyword lexeme => exact .inl rfl
  | _ => exact .inr (by decide)

/-- No class of tokens has a name of one character. -/
theorem Terminal.toString_not_mem_classes (c : Char) : c.toString ∉ Terminal.classes := by
  intro h
  have hlength : c.toString.length ∈ Terminal.classes.map String.length := List.mem_map_of_mem h
  rw [show c.toString.length = 1 from String.length_singleton] at hlength
  exact absurd hlength (by decide)

namespace Grammar

/-- What the tree in an element's place is: a leaf with one of certain tokens, unless the element
refers to a rule. -/
def Element.Matches (e : Element) (tree : Option Lookahead) : Prop :=
  match e.kind with
  | .reference _ => tree = none
  | .tokenClass name => ∃ l, tree = some l ∧ l.token.kind.terminal = name
  | .literal lexeme => ∃ l, tree = some l ∧
      (l.token.kind = .keyword lexeme ∨
        lexeme ∈ Terminal.classes ∧ l.token.kind.terminal = lexeme)
  | .charClass _ members => ∃ l, tree = some l ∧ ∃ member ∈ members, l.token.kind = .keyword member

variable {g : Grammar} {symbols : Registry}

/-- Two names of one terminal are one name. -/
theorem eq_of_terminal?_eq {name name' : String} {x : SymbolId}
    (h : symbols.terminal? name = some x) (h' : symbols.terminal? name' = some x) :
    name = name' := by
  obtain ⟨h, -⟩ := Option.filter_eq_some_iff.1 h
  obtain ⟨h', -⟩ := Option.filter_eq_some_iff.1 h'
  exact Option.some.inj ((symbols.names.value?_number? h).symm.trans
    (symbols.names.value?_number? h'))

/-- A tree with a symbol that an element offers at its root is what the element matches. -/
theorem Element.Offers.matches {e : Element} {x : SymbolId} {tree : Option Lookahead}
    (h : e.Offers g symbols x) (hprintable : e.kind.Printable)
    (hlhs : ∀ rule ∈ g.rules, symbols.terminalCount ≤ rule.lhs)
    (hstands : Forest.Stands symbols.terminalCount Lookahead.terminal x tree)
    (hread : ∀ l, tree = some l → symbols.terminal? l.token.kind.terminal = some l.terminal) :
    e.Matches tree := by
  obtain ⟨kind, location⟩ := e
  rcases h.cases with ⟨name, rfl, -, rule, hrule, rfl⟩ | ⟨name, hname, hx⟩
  · cases tree with
    | none => rfl
    | some l => exact absurd (hlhs rule hrule) (Nat.not_le.2 hstands.2)
  · cases tree with
    | none => exact absurd hstands (Nat.not_le.2 (Registry.lt_of_terminal? hx))
    | some l =>
      obtain ⟨rfl, -⟩ := hstands
      obtain rfl := eq_of_terminal?_eq (hread l rfl) hx
      cases kind with
      | reference => cases hname
      | tokenClass =>
        exact ⟨l, rfl, List.mem_singleton.1 hname⟩
      | literal =>
        obtain rfl := List.mem_singleton.1 hname
        exact ⟨l, rfl, l.token.kind.eq_keyword_or.imp_right fun h => ⟨h, rfl⟩⟩
      | charClass body members =>
        refine ⟨l, rfl, _, hname, l.token.kind.eq_keyword_or.resolve_right ?_⟩
        cases hprintable.spells with
        | charClass =>
          obtain ⟨c, -, hc⟩ := List.mem_map.1 hname
          exact hc ▸ Terminal.toString_not_mem_classes c

/-- **The trees below a rule are what the elements of its alternative match.** -/
theorem Stems.forall₂_matches {a : Alternative} {rule : ShiftReduce.Rule}
    (h : g.Stems symbols a rule) (hprintable : ∀ e ∈ a.elements, e.kind.Printable)
    (hlhs : ∀ rule ∈ g.rules, symbols.terminalCount ≤ rule.lhs) {trees : List (Option Lookahead)}
    (hstands : List.Forall₂ (Forest.Stands symbols.terminalCount Lookahead.terminal) rule.rhs trees)
    (hread : ∀ l, some l ∈ trees → symbols.terminal? l.token.kind.terminal = some l.terminal) :
    List.Forall₂ Element.Matches a.elements trees := by
  obtain ⟨-, -, helements⟩ := h
  generalize a.elements = es, rule.rhs = xs at helements hprintable hstands ⊢
  induction helements generalizing trees with
  | nil =>
    cases hstands
    exact .nil
  | cons hoffers _ ih =>
    obtain ⟨he, hes⟩ := List.forall_mem_cons.1 hprintable
    cases hstands with
    | cons hstand hstands =>
      exact .cons (hoffers.matches he hlhs hstand fun l hl => hread l (hl ▸ List.mem_cons_self))
        (ih (fun l hl => hread l (List.mem_cons_of_mem _ hl)) hes hstands)

end Grammar

namespace Automaton

variable {ε : Type} {config : Config} {registry : Registry} {source : String} {a : Automaton}

/-- The tree tells the moves of a run over some tokens. -/
structure Builds (a : Automaton) (tokens : List (Except ε Token)) (lookups : List Lookup)
    (F : Forest Lookahead) : Prop where
  parses : F.Parses a.rules a.symbols.terminalCount Lookahead.terminal [a.grammar.start]
  moves : movesOf lookups = F.moves Lookahead.terminal
  /-- The leaves are the first tokens of the input. -/
  streamed : ∀ n l, F.yield[n]? = some l → streamed tokens .start n = .ok l.token

/-- Below every rule of a tree stand the trees that the elements of its alternative match. -/
def Matched (a : Automaton) (F : Forest Lookahead) : Prop :=
  ∀ r children, (r, children) ∈ F.nodes → ∃ rule, a.rules[r]? = some rule ∧
    (∃ alternative, a.grammar.Stems a.symbols alternative rule) ∧
    ∀ alternative, a.grammar.Stems a.symbols alternative rule →
      List.Forall₂ Grammar.Element.Matches alternative.elements children.heads

/-- **What a run accepts is what the elements of the grammar match**: a literal matches the keyword
of its lexeme and nothing else, unless the lexeme is the name of a token class. -/
theorem exists_matches_of_run (hmade : registry.Made)
    (h : generate config registry source = .ok a) {tokens : List (Except ε Token)} {fuel : Nat}
    {lookups : List Lookup} {node : Ast}
    (hrun : run a.table fuel tokens = (lookups, some (.ok node))) :
    ∃ F, a.Builds tokens lookups F ∧ a.Matched F := by
  obtain ⟨c, lookaheads, result, hp⟩ := parts_of_generate h
  obtain ⟨hreserves, accept, ha⟩ := reserves_of_readRules hmade hp.read
  have hc := canonical_of_augmented ha hp.canonical
  obtain ⟨r, accept', hparse, haccept, hrules⟩ := exists_of_readRules hp.read
  obtain ⟨-, hprintable⟩ := Grammar.printable_of_parse hparse
  have hlhs : ∀ rule ∈ a.grammar.rules, a.symbols.terminalCount ≤ rule.lhs := fun rule hrule => by
    rw [(Registry.addNonterminal_ok haccept).2.1]
    exact ((Grammar.over_of_parse hparse).2.lhs rule hrule).1
  obtain ⟨config, F, value, he, -, -⟩ :=
    exists_evaluated_of_run (hp.follows hreserves ha) hc ha hrun
  refine ⟨F, ⟨he.parses, he.moves.symm, fun n l hl => (he.streamed_eq hl).1⟩,
    fun r children hmem => ?_⟩
  obtain ⟨rule, hr, hchildren⟩ := he.parses.exists_of_mem_nodes hmem
  have hstart : ∀ x ∈ [a.grammar.start], x ≠ accept := ha.rhs_ne ha.start_rule
  refine ⟨rule, hr, (Grammar.expanded_of_rulesOver hrules).stems hr
    (he.parses.ne_start ha hstart hmem), fun alternative hstems => ?_⟩
  refine hstems.forall₂_matches ?_ hlhs (hchildren.forall₂_heads ha) fun l hl => ?_
  · obtain ⟨rule', hrule', -, halternative⟩ := hstems.alternative
    exact ((hprintable rule' hrule').alternatives alternative halternative).elements
  · obtain ⟨n, hn⟩ := List.getElem?_of_mem
      (Forest.yield_subset_of_mem_nodes hmem (Forest.mem_yield_of_mem_heads hl))
    exact (he.streamed_eq hn).2

/-- A reserved word, a class of characters and a class of tokens are matched. -/
theorem exists_matches_of_run_if : ∃ (a : Automaton) (tokens : List (Except Unit Token))
    (lookups : List Lookup) (node : Ast), Registry.standard.Made ∧
    generate {} .standard "s = 'if' NUM [*-] s | NUM;" = .ok a ∧
    tokens = [.ok (.keyword "if" .start), .ok (.int 1 .start), .ok (.keyword "-" .start),
      .ok (.int 2 .start)] ∧
    run a.table 20 tokens = (lookups, some (.ok node)) ∧
    ∃ F, a.Builds tokens lookups F ∧ a.Matched F := by
  have hok : (generate {} .standard "s = 'if' NUM [*-] s | NUM;").toOption.any
      (fun a => (run (ε := Unit) a.table 20 [.ok (.keyword "if" .start), .ok (.int 1 .start),
        .ok (.keyword "-" .start), .ok (.int 2 .start)]).2.any (·.toOption.isSome)) = true := by
    decide +kernel
  obtain ⟨a, ha, hok⟩ := Except.exists_of_any_toOption hok
  obtain ⟨answer, hanswer, hsome⟩ := (Option.any_eq_true _ _).1 hok
  cases answer with
  | error e => cases hsome
  | ok node =>
    exact ⟨a, _, _, node, .standard, ha, rfl, Prod.ext rfl hanswer,
      exists_matches_of_run .standard ha (Prod.ext rfl hanswer)⟩

/-- **A literal may match a token that is no keyword**: where its lexeme is the name of a class, it
is the terminal of that class. -/
theorem exists_literal_of_number : ∃ (a : Automaton) (lookups : List Lookup) (node : Ast)
    (F children : Forest Lookahead) (l : Lookahead) (rule : Rule)
    (alternative : Grammar.Alternative),
    build "s = 'NUM';" = .ok a ∧ run a.table 9 (a.tokens "5") = (lookups, some (.ok node)) ∧
    a.Builds (a.tokens "5") lookups F ∧ (1, children) ∈ F.nodes ∧ a.rules[1]? = some rule ∧
    a.grammar.Stems a.symbols alternative rule ∧
    alternative.elements.map (·.kind) = [.literal "NUM"] ∧ children.heads = [some l] ∧
    l.token.kind = .num := by
  let l : Lookahead := ⟨.int 5 .start, 3⟩
  let F : Forest Lookahead := .node .nil 1 (.leaf .nil l)
  have hok : (build "s = 'NUM';").toOption.any (fun a =>
      (run a.table 9 (a.tokens "5")).2.any (·.toOption.isSome) ∧
      a.tokens "5" = [.ok l.token] ∧
      F.Parses a.rules a.symbols.terminalCount Lookahead.terminal [a.grammar.start] ∧
      movesOf (run a.table 9 (a.tokens "5")).1 = F.moves Lookahead.terminal ∧
      (∀ r ∈ a.grammar.rules, ∀ alternative ∈ r.alternatives,
        alternative.elements.map (·.kind) = [.literal "NUM"])) = true := by
    decide +kernel
  obtain ⟨a, ha, hok⟩ := Except.exists_of_any_toOption hok
  obtain ⟨hanswer, htokens, hparses, hmoves, hkinds⟩ := of_decide_eq_true hok
  obtain ⟨answer, hanswer, hsome⟩ := (Option.any_eq_true _ _).1 hanswer
  cases answer with
  | error e => cases hsome
  | ok node =>
    obtain ⟨c, lookaheads, result, hp⟩ := parts_of_generate ha
    obtain ⟨r, accept, -, -, hrules⟩ := exists_of_readRules hp.read
    obtain ⟨rule, hr, -⟩ := hparses.exists_of_mem_nodes (r := 1) (List.mem_singleton_self _)
    obtain ⟨alternative, hstems⟩ :=
      (Grammar.expanded_of_rulesOver hrules).stems hr Nat.one_ne_zero
    obtain ⟨r, hr', -, halternative⟩ := hstems.alternative
    refine ⟨a, _, node, F, _, l, rule, alternative, ha, Prod.ext rfl hanswer,
      ⟨hparses, hmoves, fun n l' hl => ?_⟩, List.mem_singleton_self _, hr, hstems,
      hkinds r hr' alternative halternative, rfl, rfl⟩
    rw [htokens]
    cases n with
    | zero =>
      obtain rfl := Option.some.inj hl
      rfl
    | succ n => cases hl
end Automaton
end ShiftReduce

import ShiftReduce.Completion
import ShiftReduce.Parser
import ShiftReduce.Table.Flat
import ShiftReduce.Token.Lexer

/-!
# Automaton — a grammar compiled into a parse table

`Automaton.generate` goes from a grammar text to a completed table: it reads the grammar, flattens
it into rules, builds the canonical collection, finds the lookaheads and installs the
reductions.  The automaton keeps all of that, drives a parser through `table`, and can be stored as
a flat table that answers the same lookups (`flat`).
-/

namespace ShiftReduce

/-- How an automaton is generated. -/
structure Config where
  limits : Limits := {}
  mode : LookaheadMode := .lalr

/-- A compiled grammar. -/
structure Automaton where
  symbols : Registry
  grammar : Grammar
  rules : Array Rule
  states : Array State
  lookaheads : Lookaheads
  cells : CellTable
  finalState : StateId
  conflicts : List Conflict
  mode : LookaheadMode

namespace Automaton

/-- The analysis of some rules over the registered symbols. -/
def analyze (symbols : Registry) (rules : Array Rule) : Analysis :=
  .compute (rules.toList.map Rule.toProduction) symbols.size symbols.terminalCount

/-- The lookaheads of a mode. -/
def lookaheadsOf (mode : LookaheadMode) (symbols : Registry) (rules : Array Rule) (a : Analysis)
    (c : Collection) (limits : Limits) : Except Grammar.Error Lookaheads :=
  match mode with
  | .slr => .ok (.slr rules a)
  | .lalr => do Lookaheads.lalrOf rules c (← LabelledGrammar.build rules c a symbols limits)

/-- The automaton of a grammar whose rules are flattened. -/
def ofRules (config : Config) (symbols : Registry) (grammar : Grammar) (rules : Array Rule) :
    Except Grammar.Error Automaton := do
  if config.limits.symbols < symbols.size then throw (.tooMany .symbols config.limits.symbols)
  let a := analyze symbols rules
  let c ← Collection.canonical rules a config.limits
  let lookaheads ← lookaheadsOf config.mode symbols rules a c config.limits
  let result ← Completion.complete rules c.states lookaheads (c.table a)
  return {
    symbols, grammar, rules, states := c.states, lookaheads, cells := result.table
    finalState := result.finalState, conflicts := result.conflicts, mode := config.mode }

/-- The rules of a grammar text. -/
def readRules (limits : Limits) (source : String) : Registering (Grammar × Array Rule) := do
  let grammar ← Grammar.parse source
  let rules ← grammar.flatten limits
  return (grammar, rules)

/-- The automaton of a grammar text over the symbols of a registry. -/
def generate (config : Config) (symbols : Registry) (source : String) :
    Except Grammar.Error Automaton :=
  match (readRules config.limits source).runOn symbols with
  | (.error e, _) => .error e
  | (.ok (grammar, rules), symbols) => ofRules config symbols grammar rules

/-- The automaton of a grammar text, with the usual terminals and limits. -/
def build (source : String) : Except Grammar.Error Automaton := generate {} .standard source

/-! ## Lookups -/

/-- A rule as a parser sees it. -/
def reduction (r : Rule) : Reduction := ⟨r.lhs, r.rhs.length, r.action⟩

/-- The lookups of an automaton. -/
def table (a : Automaton) : Table where
  cell := a.cells.cell
  rule? r := (a.rules[r]?).map reduction
  terminal? := a.symbols.terminal?
  symbolName? := a.symbols.name?

/-- The lexemes that the grammar matches. -/
def keywords (a : Automaton) : List String := a.grammar.keywords

/-- An item as text. -/
def renderItem (a : Automaton) (i : Item) : String := i.render a.rules a.symbols

/-- The kernel items of a state on one line. -/
def renderKernel (a : Automaton) (q : StateId) : String :=
  match a.states[q]? with
  | some state => "; ".intercalate (state.kernel.map a.renderItem)
  | none => ""

/-- The kernel of every state. -/
def kernels (a : Automaton) : List String := (List.range a.states.size).map a.renderKernel

/-- The automaton as a flat table. -/
def flat (a : Automaton) : FlatTable where
  symbols := a.symbols.names.values
  terminalCount := a.symbols.terminalCount
  rules := a.rules.map fun r => ⟨r.lhs, r.rhs, r.action⟩
  cells := a.cells.cells.map Cell.parts
  kernels := a.kernels.toArray

/-! ## Parsing -/

/-- The tokens of a program text, the grammar's own lexemes being keywords. -/
def tokens (a : Automaton) (source : String) : List (Except Lexer.Error Token) :=
  Lexer.tokens { keywords := a.keywords } source

/-- Parses a program text in at most `fuel` steps. -/
def parseText (a : Automaton) (fuel : Nat) (source : String) :
    Option (Parser.Answer Lexer.Error) :=
  Parser.parse a.table fuel (a.tokens source)

end Automaton
end ShiftReduce

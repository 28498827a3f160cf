import ShiftReduce.Numbering
import ShiftReduce.Identifier
import ShiftReduce.Token

/-!
# Symbol/Registry — the symbols of a grammar

A registry numbers the names of symbols, the terminals first: no terminal is added behind a
nonterminal, so that the terminals are exactly the symbols below `terminalCount`.  An operation that
fails leaves the registry as it found it.
-/

namespace ShiftReduce

/-- Why a name cannot be registered. -/
inductive Registry.Error where
  | terminalAfterNonterminal (name : String)
  | duplicate (name : String)
  | notNonterminal (name : String)
  | overflow
deriving DecidableEq, Repr

/-- The wording of an error. -/
def Registry.Error.message : Registry.Error → String
  | .terminalAfterNonterminal name =>
    "terminal `" ++ name ++ "` is registered after the first nonterminal"
  | .duplicate name => "symbol `" ++ name ++ "` is already registered"
  | .notNonterminal name => "`" ++ name ++ "` is a terminal and cannot be defined by a rule"
  | .overflow => "the symbol index space is exhausted"

/-- The symbols of a grammar.  `reserved` holds the words that become terminals once a grammar
quotes them. -/
structure Registry where
  names : Numbering String
  terminalCount : Nat
  reserved : List String
  terminalCount_le : terminalCount ≤ names.size := by simp

namespace Registry

/-! ## Looking symbols up -/

/-- The number of registered symbols. -/
def size (r : Registry) : Nat := r.names.size

/-- The number of registered nonterminals. -/
def nonterminalCount (r : Registry) : Nat := r.size - r.terminalCount

/-- The symbol of a name. -/
def symbol? (r : Registry) (name : String) : Option SymbolId := r.names.number? name

/-- The name of a symbol. -/
def name? (r : Registry) (x : SymbolId) : Option String := r.names.value? x

def isTerminal (r : Registry) (x : SymbolId) : Bool := x < r.terminalCount

/-- The terminal of a name. -/
def terminal? (r : Registry) (name : String) : Option SymbolId :=
  (r.symbol? name).filter r.isTerminal

/-- The names of all symbols, in order. -/
def toList (r : Registry) : List String := r.names.toList

/-- The names of the terminals, in order. -/
def terminals (r : Registry) : List String := r.toList.take r.terminalCount

/-- The names of the nonterminals, in order. -/
def nonterminals (r : Registry) : List String := r.toList.drop r.terminalCount

/-- A symbol by name, or by number if it has none. -/
def render (r : Registry) (x : SymbolId) : String := (r.name? x).getD x.tag

/-! ## Registering symbols

An operation answers with a symbol or an error, and with the registry behind it. -/

/-- Whether all numbers are given out. -/
def isFull (r : Registry) : Bool := indexSpace ≤ r.size

/-- Registers a terminal, which has to be new and before all nonterminals. -/
def addTerminal (r : Registry) (name : String) : Except Error SymbolId × Registry :=
  match h : r.names.number? name with
  | some _ => (.error (.duplicate name), r)
  | none =>
    if r.size ≠ r.terminalCount then (.error (.terminalAfterNonterminal name), r)
    else if r.isFull then (.error .overflow, r)
    else
      let x := r.size
      (.ok x, { r with
        names := r.names.push name h
        terminalCount := r.terminalCount + 1
        terminalCount_le := by simpa using r.terminalCount_le })

/-- The terminal of a quoted lexeme.  A reserved word is registered when it is first quoted; any
other lexeme has to be registered already. -/
def addReserved (r : Registry) (lexeme : String) : Except Error (Option SymbolId) × Registry :=
  match r.symbol? lexeme with
  | some x => (.ok (if r.isTerminal x then some x else none), r)
  | none =>
    if r.reserved.contains lexeme then
      match r.addTerminal lexeme with
      | (.ok x, r) => (.ok (some x), r)
      | (.error e, r) => (.error e, r)
    else (.ok none, r)

/-- The nonterminal of a name, registered when it is first met. -/
def addNonterminal (r : Registry) (name : String) : Except Error SymbolId × Registry :=
  match h : r.names.number? name with
  | some x => (if r.isTerminal x then .error (.notNonterminal name) else .ok x, r)
  | none =>
    if r.isFull then (.error .overflow, r)
    else
      let x := r.size
      (.ok x, { r with
        names := r.names.push name h
        terminalCount_le := by simpa using Nat.le_succ_of_le r.terminalCount_le })

/-! ## Registries to start from -/

/-- The classes of tokens and the operators; reserved words are terminals once they are quoted. -/
def standard : Registry :=
  let names := Numbering.ofList (Terminal.classes ++ Terminal.operators)
  { names, terminalCount := names.size, reserved := Terminal.reservedWords }

/-- The two terminals of every registry. -/
def bare : Registry :=
  let names := Numbering.ofList [Terminal.endOfInput, Terminal.epsilon]
  { names, terminalCount := names.size, reserved := [] }

/-- The two terminals of every registry and the given ones. -/
def withTerminals (terminals : List String) : Except Error Registry :=
  terminals.foldlM (fun r name =>
    match r.addTerminal name with
    | (.ok _, r) => .ok r
    | (.error e, _) => .error e) bare

end Registry
end ShiftReduce

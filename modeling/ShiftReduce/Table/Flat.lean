import ShiftReduce.Table

/-!
# Table/Flat — tables stored as flat arrays

The persisted form of a table: the names of the symbols with the terminals first, the rules, and the
cells row by row.  Nothing ties the arrays together, so every lookup is guarded: what lies outside
an array is an error cell, or no answer.
-/

namespace ShiftReduce

/-- A rule as it is stored. -/
structure FlatTable.Rule where
  lhs : SymbolId
  rhs : List SymbolId
  action : Action
deriving DecidableEq, Repr

/-- A table as flat arrays. -/
structure FlatTable where
  symbols : Array String
  terminalCount : Nat
  rules : Array FlatTable.Rule
  /-- The cell of state `q` and symbol `x` is at `q * symbols.size + x`. -/
  cells : Array (Cell.Code × Nat)
  /-- The kernel items of each state, for messages. -/
  kernels : Array String := #[]
deriving DecidableEq, Repr

namespace FlatTable

/-- The cell of a state and a symbol. -/
def cell (t : FlatTable) (q : StateId) (x : SymbolId) : Cell :=
  if x < t.symbols.size then
    match t.cells[q * t.symbols.size + x]? with
    | some (code, target) => .ofParts code target
    | none => .error
  else .error

/-- A rule as a parser sees it. -/
def Rule.reduction (r : Rule) : Reduction := ⟨r.lhs, r.rhs.length, r.action⟩

/-- The terminal of a name: the first symbol so named, if it is a terminal.  A table that claims
more terminals than it has symbols has none. -/
def terminal? (t : FlatTable) (name : String) : Option SymbolId :=
  if t.terminalCount ≤ t.symbols.size then
    (t.symbols.findIdx? (· == name)).filter (· < t.terminalCount)
  else none

/-- The lookups of a flat table. -/
def table (t : FlatTable) : Table where
  cell := t.cell
  rule? r := t.rules[r]?.map Rule.reduction
  terminal? := t.terminal?
  symbolName? x := t.symbols[x]?

end FlatTable
end ShiftReduce

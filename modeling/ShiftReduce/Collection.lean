import ShiftReduce.Item
import ShiftReduce.Table

/-!
# Collection — the states of a grammar and their transitions

The canonical collection starts with the state of the start rule and has, for every state and every
symbol behind a dot in it, the state of the advanced items.  States with the same kernel are one.
They are numbered as they are found, and their transitions are found in the order of their numbers,
so the collection is complete as soon as every state in it has its transitions.
-/

namespace ShiftReduce

/-- The transitions of a state, in the order in which they are found. -/
abbrev Transitions := List (SymbolId × StateId)

/-- States, and the transitions of the first ones. -/
structure Collection where
  states : Array State
  transitions : Array Transitions
deriving DecidableEq

namespace Collection

/-- The greatest number of states. -/
def maxStates (limits : Limits) : Nat := min limits.states indexSpace

/-- The state of a kernel, found among the states or added to them. -/
def stateOf (rules : Array Rule) (a : Analysis) (limits : Limits) (states : Array State)
    (kernel : List Item) : Except Grammar.Error (StateId × Array State) :=
  match states.findIdx? (·.hasKernel kernel) with
  | some q => .ok (q, states)
  | none =>
    if states.size < maxStates limits then
      .ok (states.size, states.push (State.closure rules a kernel))
    else .error (.tooMany .states limits.states)

/-- The transitions of a state on some of its symbols. -/
def follow (rules : Array Rule) (a : Analysis) (limits : Limits) (state : State) :
    List SymbolId → Array State → Except Grammar.Error (Transitions × Array State)
  | [], states => .ok ([], states)
  | x :: xs, states => do
    let (q, states) ← stateOf rules a limits states (state.advanceOver rules x)
    let (rest, states) ← follow rules a limits state xs states
    .ok ((x, q) :: rest, states)

/-- Finds the transitions of at most `n` further states. -/
def complete (rules : Array Rule) (a : Analysis) (limits : Limits) :
    Nat → Collection → Except Grammar.Error Collection
  | 0, c => .ok c
  | n + 1, c => match c.states[c.transitions.size]? with
    | none => .ok c
    | some state => do
      let (transitions, states) ← follow rules a limits state (state.nextSymbols rules) c.states
      complete rules a limits n ⟨states, c.transitions.push transitions⟩

/-- The canonical collection of some rules. -/
def canonical (rules : Array Rule) (a : Analysis) (limits : Limits) :
    Except Grammar.Error Collection := do
  let (_, states) ← stateOf rules a limits #[] [⟨RuleId.start, 0⟩]
  complete rules a limits (maxStates limits) ⟨states, #[]⟩

end Collection

/-! ## Tables -/

/-- A table of cells, a row for each state. -/
structure CellTable where
  width : Nat
  rows : Array (Array Cell)
deriving DecidableEq

namespace CellTable

/-- The cell of a state and a symbol; what lies outside the table is an error. -/
def cell (t : CellTable) (q : StateId) (x : SymbolId) : Cell :=
  ((t.rows[q]?).bind fun row => row[x]?).getD .error

/-- The cells row by row. -/
def cells (t : CellTable) : Array Cell := t.rows.flatten

/-- The row of some transitions: terminals are shifted, and nonterminals have gotos. -/
def rowOf (a : Analysis) (transitions : Transitions) : Array Cell :=
  transitions.foldl
    (fun row (x, q) => row.setIfInBounds x (if a.isTerminal x then .shift q else .goto q))
    (Array.replicate a.symbolCount .error)

end CellTable

/-- The transitions as a table. -/
def Collection.table (c : Collection) (a : Analysis) : CellTable :=
  ⟨a.symbolCount, c.transitions.map (CellTable.rowOf a)⟩

/-- The state that a cell leads to. -/
def Cell.target? : Cell → Option StateId
  | .shift q | .goto q => some q
  | _ => none

end ShiftReduce

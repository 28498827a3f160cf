import ShiftReduce.Lookahead

/-!
# Completion — reductions in the table

Completing a table installs the reductions of every state on their lookaheads, and the acceptance of
the start rule at the end of the input.  A cell takes one action: a shift wins over reductions, and
of several reductions the one of the first rule wins, acceptance counting as the reduction of
rule 0.  Every action that loses is reported as a conflict.
-/

namespace ShiftReduce

/-- What competed for a cell. -/
inductive Conflict.Kind where
  | shiftReduce
  | reduceReduce
deriving DecidableEq, Repr

/-- The name of a kind. -/
def Conflict.Kind.name : Conflict.Kind → String
  | .shiftReduce => "shift/reduce"
  | .reduceReduce => "reduce/reduce"

/-- An action that lost its cell to another. -/
structure Conflict where
  state : StateId
  terminal : SymbolId
  kind : Conflict.Kind
  kept : Cell
  dropped : Cell
deriving DecidableEq, Repr

/-- An action as text. -/
def Cell.describe (rules : Array Rule) (symbols : Registry) : Cell → String
  | .error => "error"
  | .shift q => "shift(" ++ StateId.tag q ++ ")"
  | .goto q => "goto(" ++ StateId.tag q ++ ")"
  | .accept => "accept"
  | .reduce r =>
    "reduce(" ++ (match rules[r]? with
      | some rule => rule.render symbols
      | none => RuleId.tag r) ++ ")"

/-- A conflict as text. -/
def Conflict.render (rules : Array Rule) (symbols : Registry) (c : Conflict) : String :=
  c.kind.name ++ " conflict in " ++ StateId.tag c.state ++ " on " ++ symbols.render c.terminal
    ++ ": kept " ++ c.kept.describe rules symbols ++ ", dropped "
    ++ c.dropped.describe rules symbols

/-- The number of conflicts of a kind. -/
def Conflict.count (kind : Conflict.Kind) (conflicts : List Conflict) : Nat :=
  conflicts.countP (·.kind == kind)

namespace Completion

/-- The rank of a reduction; the lowest one wins. -/
def rank : Cell → RuleId
  | .reduce r => r
  | _ => RuleId.start

/-- A terminal and the action that an item asks for there. -/
abbrev Candidate := SymbolId × Cell

/-- What a completed item asks for. -/
def candidatesOf (lookaheads : Lookaheads) (q : StateId) (item : Item) : List Candidate :=
  if item = Item.accepted then [(SymbolId.endOfInput, .accept)]
  else match lookaheads q item.rule with
    | none => []
    | some set => set.toList.map fun t => (t, .reduce item.rule)

/-- What the items of a state ask for, in order. -/
def candidates (rules : Array Rule) (lookaheads : Lookaheads) (q : StateId) (state : State) :
    List Candidate :=
  (state.completed rules).flatMap (candidatesOf lookaheads q)

/-- What a cell holds after a further action asked for it, and the conflict, if there is one. -/
def compete (q : StateId) (t : SymbolId) (current candidate : Cell) :
    Except Grammar.Defect (Cell × Option Conflict) :=
  match current with
  | .error => .ok (candidate, none)
  | .shift _ => .ok (current, some ⟨q, t, .shiftReduce, current, candidate⟩)
  | .goto _ => .error (.gotoOnTerminal q t)
  | .reduce _ | .accept =>
    if rank candidate < rank current then
      .ok (candidate, some ⟨q, t, .reduceReduce, candidate, current⟩)
    else .ok (current, some ⟨q, t, .reduceReduce, current, candidate⟩)

/-- Installs candidates in a row, in order. -/
def installAll (q : StateId) :
    List Candidate → Array Cell → Except Grammar.Defect (Array Cell × List Conflict)
  | [], row => .ok (row, [])
  | (t, candidate) :: rest, row => do
    let (cell, conflict) ← compete q t (row[t]?.getD .error) candidate
    let (row, conflicts) ← installAll q rest (row.setIfInBounds t cell)
    .ok (row, conflict.toList ++ conflicts)

/-- Completes the rows of states from number `q` on. -/
def completeRows (rules : Array Rule) (lookaheads : Lookaheads) :
    StateId → List State → List (Array Cell) →
      Except Grammar.Defect (List (Array Cell) × List Conflict)
  | q, state :: states, row :: rows => do
    let (row, found) ← installAll q (candidates rules lookaheads q state) row
    let (rows, conflicts) ← completeRows rules lookaheads (q + 1) states rows
    .ok (row :: rows, found ++ conflicts)
  | _, _, rows => .ok (rows, [])

/-- A completed table. -/
structure Result where
  table : CellTable
  /-- The state that holds the completed start rule. -/
  finalState : StateId
  conflicts : List Conflict

/-- Completes the table of some states. -/
def complete (rules : Array Rule) (states : Array State) (lookaheads : Lookaheads)
    (table : CellTable) : Except Grammar.Error Result :=
  match completeRows rules lookaheads 0 states.toList table.rows.toList with
  | .error d => .error (.defect d)
  | .ok (rows, conflicts) =>
    match states.findIdx? fun s => (s.completed rules).contains Item.accepted with
    | none => .error (.defect .noFinalState)
    | some q => .ok ⟨⟨table.width, rows.toArray⟩, q, conflicts⟩

end Completion
end ShiftReduce

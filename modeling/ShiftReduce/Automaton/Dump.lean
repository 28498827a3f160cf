import ShiftReduce.Automaton

/-!
# Automaton/Dump — an automaton for human readers

Every state is shown with its items, the lookaheads of the completed ones, its actions on terminals
and its gotos.
-/

namespace ShiftReduce.Automaton

/-- Lookaheads as text. -/
def renderLookaheads (a : Automaton) (s : SymbolSet) : String :=
  "  [" ++ " ".intercalate (s.toList.map a.symbols.render) ++ "]"

/-- The lookaheads of an item of a state; only completed items have any. -/
def lookaheadsOfItem (a : Automaton) (q : StateId) (i : Item) : Option SymbolSet :=
  if i.isComplete a.rules then a.lookaheads q i.rule else none

/-- An item of a state on a line of its own. -/
def dumpItem (a : Automaton) (q : StateId) (i : Item) : String :=
  let lookaheads := match a.lookaheadsOfItem q i with
    | some set => a.renderLookaheads set
    | none => ""
  "- " ++ a.renderItem i ++ lookaheads ++ "\n"

/-- The action of a state on a terminal, if it has one. -/
def dumpAction (a : Automaton) (q : StateId) (t : SymbolId) : String :=
  match a.cells.cell q t with
  | .error => ""
  | cell => "- " ++ a.symbols.render t ++ " => " ++ cell.describe a.rules a.symbols ++ "\n"

/-- The goto of a state on a nonterminal, if it has one. -/
def dumpGoto (a : Automaton) (q : StateId) (x : SymbolId) : String :=
  match a.cells.cell q x with
  | .goto next => "- " ++ a.symbols.render x ++ " => goto(" ++ StateId.tag next ++ ")\n"
  | _ => ""

/-- A state. -/
def dumpState (a : Automaton) (q : StateId) (state : State) : String :=
  let terminals := List.range a.symbols.terminalCount
  let nonterminals := (List.range a.symbols.size).drop a.symbols.terminalCount
  let closure := if state.added.isEmpty then ""
    else "## closure\n" ++ String.join (state.added.map (a.dumpItem q))
  "#### State " ++ StateId.tag q ++ "\n## kernels\n"
    ++ String.join (state.kernel.map (a.dumpItem q)) ++ closure
    ++ "## actions\n" ++ String.join (terminals.map (a.dumpAction q))
    ++ "## gotos\n" ++ String.join (nonterminals.map (a.dumpGoto q))

/-- All states, a blank line between them. -/
def dump (a : Automaton) : String :=
  "\n".intercalate (a.states.toList.zipIdx.map fun (state, q) => a.dumpState q state)

/-- The conflicts, one a line. -/
def renderConflicts (rules : Array Rule) (symbols : Registry) (conflicts : List Conflict) :
    String :=
  String.join (conflicts.map fun c => c.render rules symbols ++ "\n")

end ShiftReduce.Automaton

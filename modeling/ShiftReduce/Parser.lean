import ShiftReduce.Table
import ShiftReduce.Action.Reduce

/-!
# Parser — the shift-reduce machine

The machine keeps a stack of states, each with the node that led to it, and one token of lookahead.
`step` looks up the cell of the state on top and the lookahead and does what it says; `run` repeats
it.  Each step also tells which cells it looked up, so that a run can be followed from outside.

Nothing is assumed of the table: a step that the table makes impossible ends the run with an error.
Reductions alone may go on for ever on an inconsistent table, so `run` takes a bound on the steps.
-/

namespace ShiftReduce

/-- Why an input is rejected; `ε` is what may stand in the input in place of a token. -/
inductive Parser.Error (ε : Type) where
  | lexer (error : ε)
  | unexpected (state : StateId) (terminal : SymbolId) (name : String) (location : Location)
  | unknownTerminal (name : String) (location : Location)
  | action (error : Action.Error)
  | missingGoto (state : StateId) (nonterminal : SymbolId)
  | unknownRule (rule : RuleId)
  | emptyStack
deriving Repr

variable {ε : Type}

/-- The wording of an error. -/
def Parser.Error.message (inner : ε → String) : Parser.Error ε → String
  | .lexer e => "from lexer: " ++ inner e
  | .unexpected state _ name location =>
    location.render ++ ": unexpected " ++ name ++ " in state " ++ toString state
  | .unknownTerminal name location =>
    location.render ++ ": `" ++ name ++ "` is not a terminal of this grammar"
  | .action e => "from semantic action: " ++ e.message
  | .missingGoto state nonterminal =>
    "no goto for nonterminal " ++ toString nonterminal ++ " in state " ++ toString state
  | .unknownRule rule => "unknown rule " ++ toString rule
  | .emptyStack => "empty node stack"

namespace Parser

/-- A state on the stack and the node that led to it. -/
structure Frame where
  state : StateId
  node : Option Ast

/-- The rest of the input: tokens or errors, and the place of the last token read. -/
structure Input (ε : Type) where
  rest : List (Except ε Token)
  last : Location := .start

/-- The next token and the input behind it.  Behind its end the input holds end tokens, at the place
of the last token. -/
def Input.next (input : Input ε) : Except (Error ε) (Token × Input ε) :=
  match input.rest with
  | [] => .ok (.endOfInput input.last, input)
  | .error e :: _ => .error (.lexer e)
  | .ok token :: rest => .ok (token, ⟨rest, token.location⟩)

/-- A token with the terminal that it stands for. -/
structure Lookahead where
  token : Token
  terminal : SymbolId

/-- Reads the next token as a terminal of the table. -/
def Input.read (t : Table) (input : Input ε) : Except (Error ε) (Lookahead × Input ε) := do
  let (token, input) ← input.next
  match t.terminal? token.kind.terminal with
  | some terminal => .ok (⟨token, terminal⟩, input)
  | none => .error (.unknownTerminal token.kind.terminal token.location)

/-- A stage of a run; the top of the stack is its head. -/
structure Config (ε : Type) where
  stack : List Frame
  lookahead : Lookahead
  input : Input ε

/-- A cell that was looked up. -/
structure Lookup where
  state : StateId
  symbol : SymbolId
  cell : Cell
deriving DecidableEq, Repr

/-- What a step leads to. -/
inductive Outcome (ε : Type) where
  | next (config : Config ε)
  | accepted (node : Ast)
  | failed (error : Error ε)

/-- The first stage: the initial state, and the first token read. -/
def initial (t : Table) (tokens : List (Except ε Token)) : Except (Error ε) (Config ε) := do
  let (lookahead, input) ← Input.read t ⟨tokens, .start⟩
  .ok ⟨[⟨StateId.initial, none⟩], lookahead, input⟩

/-- Enters a state with the leaf of the lookahead.  The token behind it is read first, and an error
there comes before the shift. -/
def shift (t : Table) (q : StateId) (c : Config ε) : Outcome ε :=
  match c.input.read t with
  | .error e => .failed e
  | .ok (lookahead, input) =>
    .next ⟨⟨q, some (.leaf c.lookahead.token)⟩ :: c.stack, lookahead, input⟩

/-- Replaces the frames of a right-hand side by the node of the rule's action, in the state that the
table gives for the left-hand side.  At least one frame stays below. -/
def reduce (t : Table) (r : RuleId) (c : Config ε) : List Lookup × Outcome ε :=
  match t.rule? r with
  | none => ([], .failed (.unknownRule r))
  | some rule =>
    match c.stack.drop rule.size with
    | [] => ([], .failed .emptyStack)
    | top :: below =>
      let children := (c.stack.take rule.size).reverse.map Frame.node
      match rule.action.reduce children c.lookahead.token.location with
      | .error e => ([], .failed (.action e))
      | .ok node =>
        let cell := t.cell top.state rule.lhs
        ([⟨top.state, rule.lhs, cell⟩],
          match cell.goto? with
          | some q => .next ⟨⟨q, node⟩ :: top :: below, c.lookahead, c.input⟩
          | none => .failed (.missingGoto top.state rule.lhs))

/-- One step of the machine, and the cells it looked up.  A derivation without a node is accepted as
an empty block. -/
def step (t : Table) (c : Config ε) : List Lookup × Outcome ε :=
  match c.stack with
  | [] => ([], .failed .emptyStack)
  | top :: _ =>
    let x := c.lookahead.terminal
    let location := c.lookahead.token.location
    let cell := t.cell top.state x
    let lookup : Lookup := ⟨top.state, x, cell⟩
    match cell with
    | .shift q => ([lookup], shift t q c)
    | .reduce r => let (lookups, outcome) := reduce t r c; (lookup :: lookups, outcome)
    | .accept => ([lookup], .accepted (top.node.getD (.block location [])))
    | .error | .goto _ =>
      ([lookup], .failed (.unexpected top.state x ((t.symbolName? x).getD "") location))

/-- The answer of a run: a tree or an error. -/
abbrev Answer (ε : Type) := Except (Error ε) Ast

/-- Runs at most `fuel` steps.  `none` is a run that has not ended by then; `lookups` holds the
cells looked up so far, the last one first. -/
def runFrom (t : Table) : Nat → Config ε → List Lookup → List Lookup × Option (Answer ε)
  | 0, _, lookups => (lookups, none)
  | fuel + 1, c, lookups =>
    let (new, outcome) := step t c
    let lookups := new.reverse ++ lookups
    match outcome with
    | .next c => runFrom t fuel c lookups
    | .accepted node => (lookups, some (.ok node))
    | .failed e => (lookups, some (.error e))

/-- Parses a list of tokens in at most `fuel` steps, and tells the cells looked up, in order. -/
def run (t : Table) (fuel : Nat) (tokens : List (Except ε Token)) :
    List Lookup × Option (Answer ε) :=
  match initial t tokens with
  | .error e => ([], some (.error e))
  | .ok c => let (lookups, answer) := runFrom t fuel c []; (lookups.reverse, answer)

/-- Parses a list of tokens in at most `fuel` steps. -/
def parse (t : Table) (fuel : Nat) (tokens : List (Except ε Token)) : Option (Answer ε) :=
  (run t fuel tokens).2

end Parser
end ShiftReduce

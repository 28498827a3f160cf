import ShiftReduce.Action
import ShiftReduce.Identifier

/-!
# Table — what a parser looks up

A parse table says what to do in a state on a symbol.  A parser needs nothing else of a grammar than
the four lookups of `Table`, so tables of any make drive it, whatever they are stored as.
-/

namespace ShiftReduce

/-- What a table says at a state and a symbol. -/
inductive Cell where
  | error
  /-- Take the terminal and enter the state. -/
  | shift (state : StateId)
  /-- Reduce by the rule. -/
  | reduce (rule : RuleId)
  | accept
  /-- The state to enter once the nonterminal has been reduced. -/
  | goto (state : StateId)
deriving DecidableEq, Repr, Inhabited

namespace Cell

/-- The kind of a cell, under which it is stored. -/
inductive Code where
  | error
  | shift
  | reduce
  | accept
  | goto
deriving DecidableEq, Repr

/-- The codes in the order of their numbers. -/
def Code.all : List Code := [.error, .shift, .reduce, .accept, .goto]

/-- The number of a code. -/
def Code.toNat : Code → Nat
  | .error => 0
  | .shift => 1
  | .reduce => 2
  | .accept => 3
  | .goto => 4

/-- The name of a code. -/
def Code.name : Code → String
  | .error => "Error"
  | .shift => "Shift"
  | .reduce => "Reduce"
  | .accept => "Accept"
  | .goto => "Goto"

/-- The cell of a code and a target, which two of the codes do not use. -/
def ofParts : Code → Nat → Cell
  | .error, _ => .error
  | .shift, n => .shift n
  | .reduce, n => .reduce n
  | .accept, _ => .accept
  | .goto, n => .goto n

/-- The code and the target of a cell; an unused target is zero. -/
def parts : Cell → Code × Nat
  | .error => (.error, 0)
  | .shift n => (.shift, n)
  | .reduce n => (.reduce, n)
  | .accept => (.accept, 0)
  | .goto n => (.goto, n)

@[simp] theorem ofParts_parts (c : Cell) : ofParts c.parts.1 c.parts.2 = c := by cases c <;> rfl

end Cell

/-- What a parser needs to know of a rule. -/
structure Reduction where
  lhs : SymbolId
  size : Nat
  action : Action
deriving DecidableEq, Repr

/-- The lookups of a parser. -/
structure Table where
  cell : StateId → SymbolId → Cell
  rule? : RuleId → Option Reduction
  /-- The terminal of a name. -/
  terminal? : String → Option SymbolId
  /-- The name of a symbol, for messages. -/
  symbolName? : SymbolId → Option String

/-- The state to enter after a reduction to a nonterminal. -/
def Cell.goto? : Cell → Option StateId
  | .goto q => some q
  | _ => none

/-- The state to enter from `q` after a reduction to `x`. -/
def Table.goto? (t : Table) (q : StateId) (x : SymbolId) : Option StateId := (t.cell q x).goto?

/-- A pointer to a table, which looks everything up in the table behind it. -/
def Table.pointer (t : Table) : Table where
  cell q x := t.cell q x
  rule? r := t.rule? r
  terminal? name := t.terminal? name
  symbolName? x := t.symbolName? x

@[simp] theorem Table.pointer_eq (t : Table) : t.pointer = t := rfl

end ShiftReduce

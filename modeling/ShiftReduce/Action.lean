import ShiftReduce.Ast

/-!
# Action — what a reduction builds

An action selects children of a reduction by position and gives them to a node constructor; without
a constructor it forwards one child unchanged.  Each constructor accepts a range of child counts,
its `arity`, which is checked both when a grammar is compiled and when a reduction is made.
-/

namespace ShiftReduce

/-- The node constructors that an action can name. -/
inductive Action.Kind where
  | unary
  | binary
  | assign
  | variable
  | conditional
  | forLoop
  | whileLoop
  | call
  | function
  | record
  | block
deriving DecidableEq, Repr

/-- A range of counts, both ends included. -/
structure Action.Arity where
  least : Nat
  most : Nat
deriving DecidableEq, Repr

namespace Action.Arity

def contains (a : Arity) (n : Nat) : Bool := a.least ≤ n && n ≤ a.most

/-- The range as `least..=most`. -/
def render (a : Arity) : String := toString a.least ++ "..=" ++ toString a.most

end Action.Arity

namespace Action.Kind

/-- Every constructor. -/
def all : List Kind :=
  [.unary, .binary, .assign, .variable, .conditional, .forLoop, .whileLoop, .call, .function,
    .record, .block]

/-- The name by which a grammar selects a constructor. -/
def name : Kind → String
  | .unary => "unop"
  | .binary => "binop"
  | .assign => "assign"
  | .variable => "var"
  | .conditional => "if"
  | .forLoop => "for"
  | .whileLoop => "while"
  | .call => "call"
  | .function => "func"
  | .record => "type"
  | .block => "block"

/-- The constructor's name in generated table modules, where names begin with a capital. -/
def constant : Kind → String
  | .unary => "Unop"
  | .binary => "Binop"
  | .assign => "Assign"
  | .variable => "Var"
  | .conditional => "If"
  | .forLoop => "For"
  | .whileLoop => "While"
  | .call => "Call"
  | .function => "Func"
  | .record => "Type"
  | .block => "Block"

/-- The constructor of a name; `list` is a second name of `block`. -/
def ofName? (s : String) : Option Kind :=
  if s = "list" then some .block else all.find? fun kind => kind.name == s

/-- The numbers of children a constructor accepts.  A block takes as many as a word can count. -/
def arity : Kind → Arity
  | .unary => ⟨2, 2⟩
  | .binary => ⟨3, 3⟩
  | .assign => ⟨2, 2⟩
  | .variable => ⟨1, 2⟩
  | .conditional => ⟨2, 3⟩
  | .forLoop => ⟨4, 5⟩
  | .whileLoop => ⟨2, 2⟩
  | .call => ⟨1, 2⟩
  | .function => ⟨2, 3⟩
  | .record => ⟨1, 2⟩
  | .block => ⟨0, 0xffffffffffffffff⟩

theorem mem_all (kind : Kind) : kind ∈ all := by cases kind <;> decide

theorem ofName?_name (kind : Kind) : ofName? kind.name = some kind := by
  cases kind <;> decide

end Action.Kind

/-- An action: a constructor, if any, and the positions of the children it is given. -/
structure Action where
  kind : Option Action.Kind := none
  indexes : List Nat := []
deriving DecidableEq, Repr

namespace Action

/-- The action of a rule that names none: the first child is forwarded. -/
def forward : Action := {}

/-- The name of a constructor, or of forwarding. -/
def kindName : Option Kind → String
  | some kind => kind.name
  | none => "pass-through"

/-- A name and positions between braces. -/
def renderParts (name : Option String) (indexes : List Nat) : String :=
  "\x7b" ++ String.join ((name.toList ++ indexes.map toString).map (" " ++ ·)) ++ " \x7d"

/-- An action as a grammar writes it. -/
def render (a : Action) : String := renderParts (a.kind.map Kind.name) a.indexes

end Action
end ShiftReduce

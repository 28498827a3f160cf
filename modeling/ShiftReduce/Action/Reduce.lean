import ShiftReduce.Action

/-!
# Action/Reduce — the node of a reduction

`Action.reduce` runs an action on the children of a reduction.  Each child can be taken once: a
position named twice finds its child gone.  The node begins where the first child that is a node
begins, or else at the place given for it.
-/

namespace ShiftReduce.Action

/-- Why an action cannot build its node. -/
inductive Problem where
  | indexOutOfRange (index size : Nat)
  | missingChild (index : Nat)
  | expectedOperator (index : Nat)
  | expectedIdent (index : Nat)
  | arity (expected : Arity) (found : Nat)
deriving DecidableEq, Repr

/-- A problem and the constructor that met it. -/
structure Error where
  kind : Option Kind
  problem : Problem
deriving DecidableEq, Repr

/-- The wording of an error. -/
def Error.message (e : Error) : String :=
  let name := "`" ++ kindName e.kind ++ "`"
  match e.problem with
  | .indexOutOfRange index size =>
    name ++ ": child index " ++ toString index ++ " is out of range (" ++ toString size ++
      " symbols)"
  | .missingChild index => name ++ ": child " ++ toString index ++ " produced no node"
  | .expectedOperator index =>
    name ++ ": child " ++ toString index ++ " must be an operator token"
  | .expectedIdent index => name ++ ": child " ++ toString index ++ " must be an identifier"
  | .arity expected found =>
    name ++ " takes " ++ expected.render ++ " indexes, but " ++ toString found ++ " were given"

/-! ## Taking children -/

/-- A computation that takes children away. -/
abbrev Taking := StateT (List (Option Ast)) (Except Problem)

namespace Taking

/-- The child at a position, if it is a node. -/
def optional (index : Nat) : Taking (Option Ast) := fun children =>
  match children[index]? with
  | none => .error (.indexOutOfRange index children.length)
  | some child => .ok (child, children.set index none)

/-- The child at a position, which has to be a node. -/
def required (index : Nat) : Taking Ast := do
  match ← optional index with
  | some node => pure node
  | none => throw (.missingChild index)

/-- The lexeme of the child at a position, which has to be a keyword or operator. -/
def operator (index : Nat) : Taking String := do
  match (← required index).lexeme? with
  | some lexeme => pure lexeme
  | none => throw (.expectedOperator index)

/-- The name of the child at a position, which has to be an identifier. -/
def ident (index : Nat) : Taking String := do
  match (← required index).ident? with
  | some name => pure name
  | none => throw (.expectedIdent index)

/-- The nodes at a position: those of a block, a single other node, or none. -/
def nodes (index : Nat) : Taking (List Ast) := do
  match ← optional index with
  | some (.block _ inner) => pure inner
  | some node => pure [node]
  | none => pure []

/-- The names at a position, all of which have to be identifiers. -/
def idents (index : Nat) : Taking (List String) := do
  match (← nodes index).mapM Ast.ident? with
  | some names => pure names
  | none => throw (.expectedIdent index)

end Taking

open Taking

/-- The node of a constructor, its children taken in order. -/
def build (kind : Kind) (indexes : List Nat) (location : Location) : Taking Ast :=
  match kind, indexes with
  | .unary, [i, j] => do return .unary location (← operator i) (← required j)
  | .binary, [i, j, k] => do
    let lhs ← required i
    let op ← operator j
    return .binary location op lhs (← required k)
  | .assign, [i, j] => do return .assign location (← required i) (← required j)
  | .variable, [i] => do return .variable location (← ident i) none
  | .variable, [i, j] => do return .variable location (← ident i) (← optional j)
  | .conditional, [i, j] => do
    return .conditional location (← required i) (← required j) none
  | .conditional, [i, j, k] => do
    return .conditional location (← required i) (← required j) (← optional k)
  | .forLoop, [i, j, k, l] => do
    return .forLoop location (← ident i) (← required j) (← required k) none (← required l)
  | .forLoop, [i, j, s, k, l] => do
    let name ← ident i
    let first ← required j
    let step ← required s
    return .forLoop location name first (← required k) (some step) (← required l)
  | .whileLoop, [i, j] => do return .whileLoop location (← required i) (← required j)
  | .call, [i] => do return .call location (← ident i) []
  | .call, [i, j] => do return .call location (← ident i) (← nodes j)
  | .function, [i, j] => do return .function location (← ident i) [] (← required j)
  | .function, [i, j, k] => do
    return .function location (← ident i) (← idents j) (← required k)
  | .record, [i] => do return .record location (← ident i) []
  | .record, [i, j] => do return .record location (← ident i) (← nodes j)
  | .block, is => do return .block location (← is.mapM nodes).flatten
  | kind, is => throw (.arity kind.arity is.length)

/-- Runs an action on the children of a reduction.  The result is no node where forwarding meets an
empty rule or a child that is none. -/
def reduce (action : Action) (children : List (Option Ast)) (location : Location) :
    Except Error (Option Ast) :=
  match action.kind, action.indexes, children with
  | none, [], [] => .ok none
  | none, indexes, children =>
    ((optional (indexes.headD 0)).run' children).mapError (⟨none, ·⟩)
  | some kind, indexes, children =>
    let location := (children.findSome? fun child => child.map Ast.location).getD location
    (some <$> (build kind indexes location).run' children).mapError (⟨some kind, ·⟩)

end ShiftReduce.Action

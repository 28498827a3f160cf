import ShiftReduce.Grammar.Parse
import ShiftReduce.Limits

/-!
# Production — rules over numbered symbols

`Grammar.flatten` turns a grammar into rules of one left-hand side and one right-hand side each.
Rule 0 derives the start symbol from a symbol of its own, `S'`.  An element that matches several
lexemes yields one rule for each choice, in the order of its members, the first element varying
slowest.
-/

namespace ShiftReduce

/-- A left-hand side and a right-hand side. -/
structure Production where
  lhs : SymbolId
  rhs : List SymbolId
deriving DecidableEq, Repr, Inhabited

/-- A production and what is built when it is reduced. -/
structure Rule extends Production where
  action : Action
deriving DecidableEq, Repr

/-- A rule as text. -/
def Rule.render (symbols : Registry) (r : Rule) : String :=
  let rhs :=
    if r.rhs.isEmpty then " ε" else String.join (r.rhs.map fun x => " " ++ symbols.render x)
  symbols.render r.lhs ++ " ->" ++ rhs

namespace Grammar

/-- The left-hand side of the augmented start rule. -/
def augmentedStart : String := "S'"

/-! ## Actions -/

/-- The numbers of positions that a written action may name. -/
def writtenArity : Option Action.Kind → Action.Arity
  | some kind => kind.arity
  | none => ⟨0, 1⟩

/-- The constructor that a written action names. -/
def WrittenAction.kind? (a : WrittenAction) : Except ActionProblem (Option Action.Kind) :=
  match a.name with
  | none => .ok none
  | some name => match Action.Kind.ofName? name with
    | some kind => .ok (some kind)
    | none => .error (.unknownName name)

/-- The action of a written action to an alternative of `size` elements. -/
def WrittenAction.check (a : WrittenAction) (size : Nat) : Except ActionProblem Action :=
  match a.kind? with
  | .error e => .error e
  | .ok kind =>
    if !(writtenArity kind).contains a.indexes.length then
      .error (.arity kind (writtenArity kind) a.indexes.length)
    else match a.indexes.find? (size ≤ ·) with
      | some index => .error (.indexOutOfRange index size)
      | none => .ok ⟨kind, a.indexes⟩

/-- The action of an alternative. -/
def Alternative.action? (a : Alternative) : Except Error Action :=
  match a.action with
  | none => .ok .forward
  | some action =>
    (action.check a.elements.length).mapError (.invalidAction · action.location)

/-! ## Symbols -/

/-- The terminal of a name that stands at a place. -/
def terminalOf (symbols : Registry) (location : Location) (name : String) :
    Except Error SymbolId :=
  match symbols.terminal? name with
  | some x => .ok x
  | none => .error (.undefinedTerminal name location)

/-- The symbols that an element matches. -/
def Element.symbols? (g : Grammar) (symbols : Registry) (e : Element) :
    Except Error (List SymbolId) :=
  match e.kind with
  | .reference name =>
    match (symbols.symbol? name).filter fun x => (g.rule? x).isSome with
    | some x => .ok [x]
    | none => .error (.undefinedNonterminal name e.location)
  | .tokenClass name | .literal name => (terminalOf symbols e.location name).map ([·])
  | .charClass _ members => members.mapM (terminalOf symbols e.location)

/-- One symbol of each list, in every way; the first list varies slowest. -/
def choices : List (List SymbolId) → List (List SymbolId)
  | [] => [[]]
  | xs :: rest => xs.flatMap fun x => (choices rest).map (x :: ·)

/-- In how many ways a symbol of each list can be chosen. -/
def choiceCount : List (List SymbolId) → Nat
  | [] => 1
  | xs :: rest => xs.length * choiceCount rest

@[simp] theorem length_choices (lists : List (List SymbolId)) :
    (choices lists).length = choiceCount lists := by
  induction lists with
  | nil => rfl
  | cons xs rest ih =>
    rw [choiceCount, ← ih, choices, List.length_flatMap]
    simp [List.map_const']

/-! ## Rules -/

/-- Adds the rules of an alternative. -/
def addAlternative (g : Grammar) (symbols : Registry) (limits : Limits) (lhs : SymbolId)
    (rules : Array ShiftReduce.Rule) (a : Alternative) :
    Except Error (Array ShiftReduce.Rule) := do
  let action ← a.action?
  let matched ← a.elements.mapM (Element.symbols? g symbols)
  if limits.rightHandSide < matched.length then
    throw (.tooMany .rightHandSide limits.rightHandSide)
  if limits.rules < rules.size + choiceCount matched then
    throw (.tooMany .rules limits.rules)
  return rules ++ ((choices matched).map fun rhs => ⟨⟨lhs, rhs⟩, action⟩).toArray

/-- The rules of a grammar whose symbols, and `S'` among them, are registered. -/
def rulesOver (g : Grammar) (symbols : Registry) (limits : Limits) (accept : SymbolId) :
    Except Error (Array ShiftReduce.Rule) := do
  let start : ShiftReduce.Rule := ⟨⟨accept, [g.start]⟩, .forward⟩
  let rules ← g.rules.foldlM (fun rules rule =>
    rule.alternatives.foldlM (addAlternative g symbols limits rule.lhs) rules) #[start]
  if indexSpace < rules.size then throw (.tooMany .rules indexSpace)
  return rules

/-- The rules of a grammar, the augmented start rule first. -/
def flatten (g : Grammar) (limits : Limits) : Registering (Array ShiftReduce.Rule) := do
  let accept ← Registering.register (·.addNonterminal augmentedStart)
  let symbols ← get
  match g.rulesOver symbols limits accept with
  | .ok rules => return rules
  | .error e => throw e

end Grammar
end ShiftReduce

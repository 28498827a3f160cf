import ShiftReduce.Collection

/-!
# Labelled — the grammar split by states

A label is a nonterminal with the two states that an occurrence of it spans.  Walking a rule from
each state in which it begins labels every nonterminal of its right-hand side, and its left-hand
side by the state and its goto.  The labelled rules generate the same sentences, but the follow set
of a label says what follows the nonterminal at that place of the automaton only: these are the
LALR(1) lookaheads.
-/

namespace ShiftReduce

/-- A nonterminal and the states before and behind it. -/
structure Label where
  symbol : SymbolId
  source : StateId
  target : StateId
deriving DecidableEq, Repr

namespace Label

/-- Labels by symbol, then by the states. -/
def order : Label → Label → Ordering :=
  compareLex (compareOn symbol) (compareLex (compareOn source) (compareOn target))

instance : Ord Label := ⟨order⟩

instance : Std.TransOrd Label := inferInstanceAs
  (Std.TransCmp (compareLex (compareOn symbol) (compareLex (compareOn source) (compareOn target))))

instance : Std.LawfulEqOrd Label where
  eq_of_compare {a b} h := by
    change order a b = .eq at h
    simp only [order, compareLex_eq_eq, compareOn, Nat.compare_eq_eq] at h
    obtain ⟨h₁, h₂, h₃⟩ := h
    cases a
    cases b
    simp_all

end Label

/-- A rule walked from `source` to `target`. -/
structure LabelledRule extends Production where
  origin : RuleId
  source : StateId
  target : StateId
deriving DecidableEq, Repr

/-- The labelled grammar; the labels are numbered from `base` on. -/
structure LabelledGrammar where
  base : Nat
  labels : Numbering Label
  rules : List LabelledRule
  analysis : Analysis

namespace LabelledGrammar

/-- The number of a label, which is given one when it is first met. -/
def number (base : Nat) (limits : Limits) (label : Label) (labels : Numbering Label) :
    Except Grammar.Error (SymbolId × Numbering Label) :=
  match h : labels.number? label with
  | some n => .ok (base + n, labels)
  | none =>
    let x := base + labels.size
    if limits.symbols ≤ x then .error (.tooMany .symbols limits.symbols)
    else if indexSpace < x then .error (.tooMany .symbols indexSpace)
    else .ok (x, labels.push label h)

/-- The state behind a symbol. -/
def stepFrom (table : CellTable) (q : StateId) (x : SymbolId) : Except Grammar.Error StateId :=
  match (table.cell q x).target? with
  | some next => .ok next
  | none => .error (.defect (.missingTransition q x))

/-- A right-hand side walked from a state: its symbols labelled, and the state behind it. -/
def walk (table : CellTable) (terminalCount base : Nat) (limits : Limits) (q : StateId) :
    List SymbolId → Numbering Label →
      Except Grammar.Error (List SymbolId × StateId × Numbering Label)
  | [], labels => .ok ([], q, labels)
  | x :: xs, labels => do
    let next ← stepFrom table q x
    let (y, labels) ←
      if x < terminalCount then .ok (x, labels) else number base limits ⟨x, q, next⟩ labels
    let (ys, target, labels) ← walk table terminalCount base limits next xs labels
    .ok (y :: ys, target, labels)

/-- The labelled rule of a rule that begins in a state.  The start symbol keeps its name. -/
def labelRule (table : CellTable) (terminalCount base : Nat) (limits : Limits) (q : StateId)
    (r : RuleId) (rule : Rule) (labels : Numbering Label) :
    Except Grammar.Error (LabelledRule × Numbering Label) := do
  let (rhs, target, labels) ← walk table terminalCount base limits q rule.rhs labels
  let (lhs, labels) ←
    if r = RuleId.start then .ok (rule.lhs, labels)
    else do
      let next ← stepFrom table q rule.lhs
      number base limits ⟨rule.lhs, q, next⟩ labels
  .ok (⟨⟨lhs, rhs⟩, r, q, target⟩, labels)

/-- The rules that begin in the states, with the states. -/
def begun (rules : Array Rule) (c : Collection) : List (StateId × RuleId × Rule) :=
  c.states.toList.zipIdx.flatMap fun (state, q) =>
    state.items.filterMap fun item =>
      if item.dot = 0 then (rules[item.rule]?).map fun rule => (q, item.rule, rule) else none

/-- Adds the labelled rule of a rule that begins in a state to those done. -/
def labelNext (table : CellTable) (terminalCount base : Nat) (limits : Limits) :
    List LabelledRule × Nat × Numbering Label → StateId × RuleId × Rule →
      Except Grammar.Error (List LabelledRule × Nat × Numbering Label)
  | (done, count, labels), (q, r, rule) => do
    let (labelled, labels) ← labelRule table terminalCount base limits q r rule labels
    if limits.labelledRules ≤ count then throw (.tooMany .labelledRules limits.labelledRules)
    return (labelled :: done, count + 1, labels)

/-- The labelled rules, in reverse, and the labels. -/
def labelAll (table : CellTable) (terminalCount base : Nat) (limits : Limits)
    (begun : List (StateId × RuleId × Rule)) :
    Except Grammar.Error (List LabelledRule × Nat × Numbering Label) :=
  begun.foldlM (labelNext table terminalCount base limits) ([], 0, Numbering.empty)

/-- The labelled grammar of a collection. -/
def build (rules : Array Rule) (c : Collection) (a : Analysis) (symbols : Registry)
    (limits : Limits) : Except Grammar.Error LabelledGrammar := do
  let (done, _, labels) ←
    labelAll (c.table a) symbols.terminalCount symbols.size limits (begun rules c)
  let labelled := done.reverse
  return {
    base := symbols.size, labels, rules := labelled
    analysis := .compute (labelled.map LabelledRule.toProduction) (symbols.size + labels.size)
      symbols.terminalCount }

/-- The label of a symbol, if it is one. -/
def label? (g : LabelledGrammar) (x : SymbolId) : Option Label :=
  if g.base ≤ x then g.labels.value? (x - g.base) else none

/-- A symbol as text, a label with its states. -/
def renderSymbol (g : LabelledGrammar) (symbols : Registry) (x : SymbolId) : String :=
  match g.label? x with
  | some label =>
    symbols.render label.symbol ++ "[" ++ toString label.source ++ ":" ++ toString label.target
      ++ "]"
  | none => symbols.render x

/-- The rules as text, one a line. -/
def render (g : LabelledGrammar) (symbols : Registry) : String :=
  String.join (g.rules.map fun r =>
    r.origin.tag ++ ": " ++ g.renderSymbol symbols r.lhs ++ " ->"
      ++ String.join (r.rhs.map fun x => " " ++ g.renderSymbol symbols x) ++ "\n")

end LabelledGrammar
end ShiftReduce

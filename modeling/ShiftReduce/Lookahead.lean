import ShiftReduce.Labelled

/-!
# Lookahead — the terminals on which a rule is reduced

A completed item is reduced on its lookaheads only.  LALR(1) takes the follow sets of the labelled
left-hand sides whose rules end in the state, SLR(1) the follow set of the plain left-hand side.
-/

namespace ShiftReduce

/-- The lookaheads of a rule completed in a state; `none` where nothing was found out. -/
abbrev Lookaheads := StateId → RuleId → Option SymbolSet

/-- How lookaheads are computed. -/
inductive LookaheadMode where
  | lalr
  | slr
deriving DecidableEq, Repr, Inhabited

/-- The name of a mode. -/
def LookaheadMode.name : LookaheadMode → String
  | .lalr => "Lalr"
  | .slr => "Slr"

namespace Lookaheads

/-- The labelled rules that come from a rule and end in a state. -/
def endingIn (g : LabelledGrammar) (q : StateId) (r : RuleId) : List LabelledRule :=
  g.rules.filter fun l => l.target == q && l.origin == r

/-- The LALR(1) lookaheads. -/
def lalr (g : LabelledGrammar) : Lookaheads := fun q r =>
  match endingIn g q r with
  | [] => none
  | ending => some (ending.foldl
      (fun s l => s.unionExcept (g.analysis.followSet l.lhs) SymbolId.epsilon) ∅)

/-- The SLR(1) lookaheads. -/
def slr (rules : Array Rule) (a : Analysis) : Lookaheads := fun _ r =>
  (rules[r]?).map fun rule => (∅ : SymbolSet).unionExcept (a.followSet rule.lhs) SymbolId.epsilon

/-- Whether the state in which a labelled rule ends holds the completed rule. -/
def endsComplete (rules : Array Rule) (c : Collection) (l : LabelledRule) : Bool :=
  match c.states[l.target]? with
  | some state => (state.completed rules).any (·.rule == l.origin)
  | none => false

/-- The LALR(1) lookaheads of a collection, all of which belong to completed items. -/
def lalrOf (rules : Array Rule) (c : Collection) (g : LabelledGrammar) :
    Except Grammar.Error Lookaheads :=
  match g.rules.find? fun l => !endsComplete rules c l with
  | some l => .error (.defect (.missingCompletion l.target l.origin))
  | none => .ok (lalr g)

end Lookaheads
end ShiftReduce

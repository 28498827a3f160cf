import ShiftReduce.Grammar.Lexeme
import ShiftReduce.Symbol.Registry
import ShiftReduce.Action
import ShiftReduce.Text.Quoted

/-!
# Grammar/Error — why a grammar is rejected

The causes for which a grammar yields no automaton, each with its wording.  `Defect` stands apart:
its cases are states of affairs that the construction rules out; the theorem that none of them
arises is `Automaton.flawless_generate`.
-/

namespace ShiftReduce.Grammar

/-- Why a text is no grammar. -/
inductive Misreading where
  | openClass
  | openLiteral
  | strayCharacter (c : Char)
  | noRules
  | noRuleName (found : Lexeme)
  | missingEquals (name : String)
  | noSeparator (found : Lexeme)
  | emptyLiteral
  | reversedRange (first last : Char)
  | emptyClass
  | unexpected (found : Lexeme)
  | mixedEpsilon
  | indexTooLarge (digits : String)
  | openAction (found : Option Lexeme)
deriving DecidableEq, Repr

/-- The wording of a misreading. -/
def Misreading.message : Misreading → String
  | .openClass => "unterminated character class"
  | .openLiteral => "unterminated literal"
  | .strayCharacter c => "unexpected character " ++ Text.quotedChar c
  | .noRules => "the grammar defines no rules"
  | .noRuleName found => "expected a rule name, found " ++ found.describe
  | .missingEquals name => "missing `=` after rule name `" ++ name ++ "`"
  | .noSeparator found => "expected `|` or `;`, found " ++ found.describe
  | .emptyLiteral => "empty literal"
  | .reversedRange first last =>
    "invalid range `" ++ first.toString ++ "-" ++ last.toString ++ "` in character class"
  | .emptyClass => "empty character class"
  | .unexpected found => "unexpected " ++ found.describe
  | .mixedEpsilon => "`EPSILON` cannot be combined with other symbols"
  | .indexTooLarge digits => "index " ++ digits ++ " is too large"
  | .openAction none => "unterminated semantic action block"
  | .openAction (some found) =>
    "unterminated semantic action block: expected `\x7d`, found " ++ found.describe

/-- Why a written action is no action. -/
inductive ActionProblem where
  | unknownName (name : String)
  | arity (kind : Option Action.Kind) (expected : Action.Arity) (found : Nat)
  | indexOutOfRange (index size : Nat)
deriving DecidableEq, Repr

/-- The wording of a problem. -/
def ActionProblem.message : ActionProblem → String
  | .unknownName name => "unknown action `" ++ name ++ "`"
  | .arity kind expected found =>
    let range := if expected.least = expected.most then toString expected.least
      else toString expected.least ++ " to " ++ toString expected.most
    "`" ++ Action.kindName kind ++ "` takes " ++ range ++ " indexes, found " ++ toString found
  | .indexOutOfRange index size =>
    "index " ++ toString index ++ " is out of range for an alternative of " ++ toString size
      ++ " symbols"

/-- What there can be too much of. -/
inductive Resource where
  | rules
  | rightHandSide
  | symbols
  | states
  | labelledRules
deriving DecidableEq, Repr

/-- The name of a resource. -/
def Resource.name : Resource → String
  | .rules => "rules"
  | .rightHandSide => "symbols on a right-hand side"
  | .symbols => "symbols"
  | .states => "states"
  | .labelledRules => "augmented rules"

/-- What the construction of an automaton rules out. -/
inductive Defect where
  /-- A state has no transition on the next symbol of one of its items. -/
  | missingTransition (state : StateId) (symbol : SymbolId)
  /-- The state behind a right-hand side does not hold its completed item. -/
  | missingCompletion (state : StateId) (rule : RuleId)
  /-- A terminal has a goto. -/
  | gotoOnTerminal (state : StateId) (terminal : SymbolId)
  /-- No state holds the completed start rule. -/
  | noFinalState
deriving DecidableEq, Repr

/-- Why a grammar yields no automaton. -/
inductive Error where
  | misread (problem : Misreading) (location : Location)
  | undefinedTerminal (name : String) (location : Location)
  | undefinedNonterminal (name : String) (location : Location)
  | tooMany (resource : Resource) (limit : Nat)
  | invalidAction (problem : ActionProblem) (location : Location)
  | registry (error : Registry.Error)
  | defect (defect : Defect)
deriving DecidableEq, Repr

/-- The wording of an error. -/
def Error.message : Error → String
  | .misread problem location => location.render ++ ": " ++ problem.message
  | .undefinedTerminal name location =>
    location.render ++ ": undefined terminal `" ++ name ++ "`"
  | .undefinedNonterminal name location =>
    location.render ++ ": undefined nonterminal `" ++ name ++ "`"
  | .tooMany resource limit =>
    "too many " ++ resource.name ++ " (the limit is " ++ toString limit ++ ")"
  | .invalidAction problem location =>
    location.render ++ ": invalid semantic action: " ++ problem.message
  | .registry _ => "from symbol registry"
  | .defect _ => "the construction of the automaton is defective"

/-- A misreading at its place. -/
def Error.ofMisreading (m : Located Misreading) : Error := .misread m.value m.location

end ShiftReduce.Grammar

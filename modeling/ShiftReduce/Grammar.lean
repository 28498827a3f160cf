import ShiftReduce.Grammar.Error

/-!
# Grammar — rules as a text states them

A grammar is a list of rules, one for each left-hand side, in the order of their first definitions.
A text may define a rule in several places; `ofDefinitions` gathers the alternatives of all of them.
Names are kept as written: which symbols they stand for is settled when the rules are flattened.
-/

namespace ShiftReduce

/-- What an element of an alternative matches. -/
inductive Grammar.Element.Kind where
  /-- A rule. -/
  | reference (name : String)
  /-- A class of tokens. -/
  | tokenClass (name : String)
  /-- One lexeme. -/
  | literal (lexeme : String)
  /-- Any of several lexemes; `body` is the class as written. -/
  | charClass (body : String) (members : List String)
deriving DecidableEq, Repr

/-- An element of an alternative. -/
structure Grammar.Element where
  kind : Element.Kind
  location : Location
deriving DecidableEq, Repr

/-- The action named at the end of an alternative, not yet checked. -/
structure Grammar.WrittenAction where
  name : Option String
  indexes : List Nat
  location : Location
deriving DecidableEq, Repr

/-- One of the forms of a rule. -/
structure Grammar.Alternative where
  elements : List Element
  action : Option WrittenAction
  location : Location
deriving DecidableEq, Repr

/-- A definition in a grammar text. -/
structure Grammar.Definition where
  name : String
  alternatives : List Alternative
  location : Location
deriving DecidableEq, Repr

/-- A rule: everything that a text defines for one name. -/
structure Grammar.Rule where
  lhs : SymbolId
  name : String
  alternatives : List Alternative
  location : Location
deriving DecidableEq, Repr

/-- A grammar.  `keywords` are the lexemes that its elements match, in the order of the text. -/
structure Grammar where
  start : SymbolId
  rules : List Grammar.Rule
  keywords : List String
deriving DecidableEq, Repr

namespace Grammar

/-- The lexemes that an element matches. -/
def Element.lexemes (e : Element) : List String :=
  match e.kind with
  | .reference _ | .tokenClass _ => []
  | .literal lexeme => [lexeme]
  | .charClass _ members => members

/-- The lexemes in a definition, in order. -/
def Definition.lexemes (d : Definition) : List String :=
  d.alternatives.flatMap fun a => a.elements.flatMap Element.lexemes

/-- Adds a definition of the symbol `lhs`: to its rule, or as a new rule at the end. -/
def define (rules : List Rule) (lhs : SymbolId) (d : Definition) : List Rule :=
  if rules.any (·.lhs == lhs) then
    rules.map fun rule =>
      if rule.lhs = lhs then { rule with alternatives := rule.alternatives ++ d.alternatives }
      else rule
  else rules ++ [⟨lhs, d.name, d.alternatives, d.location⟩]

/-- The grammar of a text's definitions, each with the symbol that it defines, the first one being
that of the start symbol. -/
def ofDefinitions (start : SymbolId) (definitions : List (SymbolId × Definition)) : Grammar where
  start := start
  rules := definitions.foldl (fun rules (lhs, d) => define rules lhs d) []
  keywords := (definitions.flatMap fun (_, d) => d.lexemes).eraseDups

/-- The rule of a left-hand side. -/
def rule? (g : Grammar) (lhs : SymbolId) : Option Rule := g.rules.find? (·.lhs == lhs)

/-- The rule of a name. -/
def ruleNamed? (g : Grammar) (name : String) : Option Rule := g.rules.find? (·.name == name)

/-! ## Grammars as text -/

/-- An element as text.  A lexeme with a single quote in it stands between double quotes. -/
def Element.render (e : Element) : String :=
  match e.kind with
  | .reference name | .tokenClass name => name
  | .literal lexeme =>
    if lexeme.toList.contains '\'' then "\"" ++ lexeme ++ "\"" else "'" ++ lexeme ++ "'"
  | .charClass body _ => "[" ++ body ++ "]"

/-- A written action as text. -/
def WrittenAction.render (a : WrittenAction) : String := Action.renderParts a.name a.indexes

/-- An alternative as text; one without elements is the reserved name of the empty string. -/
def Alternative.render (a : Alternative) : String :=
  let elements := if a.elements.isEmpty then Terminal.epsilon
    else " ".intercalate (a.elements.map Element.render)
  match a.action with
  | none => elements
  | some action => elements ++ " " ++ action.render

/-- A rule as text, one alternative a line. -/
def Rule.render (r : Rule) : String :=
  r.name ++ " = " ++ "\n    | ".intercalate (r.alternatives.map Alternative.render)
    ++ "\n    ;\n"

/-- A grammar as text, from which it can be read again. -/
def render (g : Grammar) : String := String.join (g.rules.map Rule.render)

end Grammar
end ShiftReduce

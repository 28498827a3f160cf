/-!
# Identifier — numbers of symbols, rules and states

Symbols, rules and states are numbered from zero without gaps.  Terminals come before nonterminals,
the end of the input and the empty string being the first two; rule 0 is the augmented start rule
and state 0 the initial state.  Tables keep such numbers in words of 16 bits, which is what
`indexSpace` bounds.
-/

namespace ShiftReduce

/-- The number of a grammar symbol. -/
abbrev SymbolId := Nat

/-- The number of a rule. -/
abbrev RuleId := Nat

/-- The number of a state. -/
abbrev StateId := Nat

/-- The greatest number of a word.  Registered symbols, states and the rules of a grammar are no
more than it. -/
def indexSpace : Nat := 0xffff

/-- A number with at least three digits. -/
def threeDigits (n : Nat) : String :=
  let digits := Nat.toDigits 10 n
  String.ofList (List.replicate (3 - digits.length) '0' ++ digits)

namespace SymbolId

/-- The terminal that ends every input. -/
def endOfInput : SymbolId := 0

/-- The terminal that stands for the empty string. -/
def epsilon : SymbolId := 1

/-- A symbol by its number. -/
def tag (s : SymbolId) : String :=
  if s = endOfInput then "#EOF" else if s = epsilon then "#EPSILON" else "#" ++ threeDigits s

end SymbolId

namespace RuleId

/-- The augmented start rule. -/
def start : RuleId := 0

/-- A rule by its number. -/
def tag (r : RuleId) : String := if r = start then "R#Start" else "R#" ++ threeDigits r

end RuleId

namespace StateId

/-- The initial state. -/
def initial : StateId := 0

/-- A state by its number. -/
def tag (q : StateId) : String := "S#" ++ threeDigits q

end StateId
end ShiftReduce

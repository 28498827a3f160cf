import ShiftReduce.FixedPoint
import ShiftReduce.Production
import ShiftReduce.Symbol.Set

/-!
# Analysis — nullable symbols, first sets and follow sets

Three questions about a list of productions, each answered by the least solution of its
inequalities:

* which symbols derive the empty string;
* which terminals can begin what a symbol derives, with `EPSILON` standing for the empty string;
* which terminals can follow a symbol in what the first left-hand side derives, where the end of the
  input follows that left-hand side itself.

All three are found together.  A round goes through the productions once for each question, adds
what they ask for to the sets it finds, and tells whether any set has become larger; rounds are
repeated until none has.
-/

namespace ShiftReduce

/-- What is known of the symbols of some productions. -/
structure Analysis where
  terminalCount : Nat
  nullable : SymbolSet
  /-- The first set of each symbol. -/
  first : Array SymbolSet
  /-- The follow set of each symbol; `EPSILON` is in none. -/
  follow : Array SymbolSet
  /-- The productions of each symbol, in order, as far as there are words for their numbers. -/
  rules : Array (List RuleId)
deriving DecidableEq

namespace Analysis

/-- The set of a symbol. -/
def setOf (sets : Array SymbolSet) (x : SymbolId) : SymbolSet := sets[x]?.getD ∅

/-- Enlarges the set of a symbol, and tells whether it has more elements then. -/
def enlarge (sets : Array SymbolSet) (x : SymbolId) (f : SymbolSet → SymbolSet) :
    Array SymbolSet × Bool :=
  match sets[x]? with
  | none => (sets, false)
  | some old => let new := f old; (sets.setIfInBounds x new, new.size != old.size)

/-! ## Nullable symbols -/

/-- A left-hand side is nullable if its whole right-hand side is. -/
def nullableStep (nullable : SymbolSet) (p : Production) : SymbolSet × Bool :=
  if !nullable.contains p.lhs && p.rhs.all nullable.contains then (nullable.insert p.lhs, true)
  else (nullable, false)

/-- One pass over the productions. -/
def nullablePass (productions : List Production) (nullable : SymbolSet) : SymbolSet × Bool :=
  FixedPoint.pass nullableStep productions nullable

/-! ## First sets -/

/-- What begins a sequence of symbols, without `EPSILON`, and whether all of it is nullable. -/
def firstOfSequence (nullable : SymbolSet) (first : Array SymbolSet) :
    List SymbolId → SymbolSet × Bool
  | [] => (∅, true)
  | x :: xs =>
    let own := (setOf first x).erase SymbolId.epsilon
    if nullable.contains x then
      let (rest, all) := firstOfSequence nullable first xs
      (own ∪ rest, all)
    else (own, false)

/-- What a production asks for in the first set of its left-hand side. -/
def firstAsked (nullable : SymbolSet) (first : Array SymbolSet) (p : Production) : SymbolSet :=
  let (own, all) := firstOfSequence nullable first p.rhs
  if all then own.insert SymbolId.epsilon else own

/-- What begins a right-hand side begins its left-hand side. -/
def firstStep (nullable : SymbolSet) (first : Array SymbolSet) (p : Production) :
    Array SymbolSet × Bool := enlarge first p.lhs (· ∪ firstAsked nullable first p)

/-- One pass over the productions. -/
def firstPass (nullable : SymbolSet) (productions : List Production) (first : Array SymbolSet) :
    Array SymbolSet × Bool := FixedPoint.pass (firstStep nullable) productions first

/-! ## Follow sets -/

/-- The symbols of a sequence, each with what stands behind it. -/
def occurrences : List SymbolId → List (SymbolId × List SymbolId)
  | [] => []
  | x :: rest => (x, rest) :: occurrences rest

/-- What an occurrence before `rest` asks for in the follow set of its symbol: what begins the rest,
and what follows the left-hand side if the rest is nullable. -/
def followAsked (nullable : SymbolSet) (first : Array SymbolSet) (lhs : SymbolId)
    (rest : List SymbolId) (follow : Array SymbolSet) : SymbolSet :=
  let (own, all) := firstOfSequence nullable first rest
  if all then own ∪ setOf follow lhs else own

/-- A nonterminal is followed by what its occurrence asks for. -/
def followStep (terminalCount : Nat) (nullable : SymbolSet) (first : Array SymbolSet)
    (lhs : SymbolId) (follow : Array SymbolSet) (occurrence : SymbolId × List SymbolId) :
    Array SymbolSet × Bool :=
  let (x, rest) := occurrence
  if x < terminalCount then (follow, false)
  else enlarge follow x
    (·.unionExcept (followAsked nullable first lhs rest follow) SymbolId.epsilon)

/-- One pass over the occurrences in a right-hand side. -/
def followRight (terminalCount : Nat) (nullable : SymbolSet) (first follow : Array SymbolSet)
    (p : Production) : Array SymbolSet × Bool :=
  FixedPoint.pass (followStep terminalCount nullable first p.lhs) (occurrences p.rhs) follow

/-- One pass over the productions. -/
def followPass (terminalCount : Nat) (nullable : SymbolSet) (first : Array SymbolSet)
    (productions : List Production) (follow : Array SymbolSet) : Array SymbolSet × Bool :=
  FixedPoint.pass (followRight terminalCount nullable first) productions follow

/-! ## The analysis -/

/-- Every terminal begins itself. -/
def initialFirst (symbolCount terminalCount : Nat) : Array SymbolSet :=
  ((List.range symbolCount).map fun x =>
    if x < terminalCount then SymbolSet.singleton x else ∅).toArray

/-- The end of the input follows the first left-hand side. -/
def initialFollow (productions : List Production) (symbolCount : Nat) : Array SymbolSet :=
  let none := Array.replicate symbolCount ∅
  match productions with
  | [] => none
  | p :: _ => (enlarge none p.lhs (·.insert SymbolId.endOfInput)).1

/-- The numbers of the productions of each symbol.  A number that does not fit its word is left
out. -/
def rulesOf (productions : List Production) (symbolCount : Nat) : Array (List RuleId) :=
  ((List.range symbolCount).map fun x =>
    productions.zipIdx.filterMap fun (p, r) =>
      if p.lhs = x ∧ r ≤ indexSpace then some r else none).toArray

/-- What is known before the first pass. -/
def initial (productions : List Production) (symbolCount terminalCount : Nat) : Analysis where
  terminalCount := terminalCount
  nullable := ∅
  first := initialFirst symbolCount terminalCount
  follow := initialFollow productions symbolCount
  rules := rulesOf productions symbolCount

/-- One pass for each question, and whether any of them has added something. -/
def round (productions : List Production) (a : Analysis) : Analysis × Bool :=
  let (nullable, moreNullable) := nullablePass productions a.nullable
  let (first, moreFirst) := firstPass nullable productions a.first
  let (follow, moreFollow) := followPass a.terminalCount nullable first productions a.follow
  ({ a with nullable, first, follow }, moreNullable || moreFirst || moreFollow)

/-- What one more round makes of an analysis. -/
def refine (productions : List Production) (a : Analysis) : Analysis := (round productions a).1

/-- How many elements the sets can have: symbols that are nullable, and for each symbol the
terminals and the two reserved ones in its first set and in its follow set. -/
def capacity (symbolCount terminalCount : Nat) : Nat :=
  symbolCount + 2 * (symbolCount * (terminalCount + 2))

/-- The analysis of some productions over the symbols below `symbolCount`. -/
def compute (productions : List Production) (symbolCount terminalCount : Nat) : Analysis :=
  FixedPoint.repeatPass (round productions) (capacity symbolCount terminalCount + 1)
    (initial productions symbolCount terminalCount)

/-- The number of symbols. -/
def symbolCount (a : Analysis) : Nat := a.first.size

def isTerminal (a : Analysis) (x : SymbolId) : Bool := x < a.terminalCount

/-- What begins a sequence of symbols, without `EPSILON`, and whether all of it is nullable. -/
def firstOf (a : Analysis) (xs : List SymbolId) : SymbolSet × Bool :=
  firstOfSequence a.nullable a.first xs

/-- The first set of a symbol. -/
def firstSet (a : Analysis) (x : SymbolId) : SymbolSet := setOf a.first x

/-- The follow set of a symbol. -/
def followSet (a : Analysis) (x : SymbolId) : SymbolSet := setOf a.follow x

/-- The productions of a symbol, as far as they have numbers. -/
def rulesFor (a : Analysis) (x : SymbolId) : List RuleId := a.rules[x]?.getD []

end Analysis
end ShiftReduce

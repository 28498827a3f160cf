import ShiftReduce.Grammar.Reader

/-!
# Grammar/Parse — a grammar from its text

Reading a text registers its symbols: first the reserved words that it quotes, anywhere in the text,
then the names of its definitions in order.  What a failing text has registered by then stays
registered, and an error of the registry comes before a misreading behind it.
-/

namespace ShiftReduce

/-- A computation that registers symbols, and may fail; what it registered before it failed stays
registered. -/
abbrev Registering := ExceptT Grammar.Error (StateM Registry)

namespace Registering

/-- Runs one operation of the registry. -/
def register {α : Type} (f : Registry → Except Registry.Error α × Registry) : Registering α :=
  fun r => match f r with
    | (.error e, r) => (.error (.registry e), r)
    | (.ok a, r) => (.ok a, r)

/-- The outcome and the registry behind it. -/
def runOn {α : Type} (m : Registering α) (r : Registry) : Except Grammar.Error α × Registry :=
  ExceptT.run m r

end Registering

namespace Grammar

/-- The bodies of the quoted lexemes, in order. -/
def quotedBodies (ts : Lexemes) : List String :=
  ts.filterMap fun t => match t.value with
    | .quoted _ body => some body
    | _ => none

/-- The grammar of a text. -/
def parse (source : String) : Registering Grammar :=
  match scan source with
  | .error e => throw (.ofMisreading e)
  | .ok (ts, finish) => do
    (quotedBodies ts).forM fun body => discard (Registering.register (·.addReserved body))
    let reading := readDefinitions finish ts
    let symbols ← reading.names.mapM fun name => Registering.register (·.addNonterminal name)
    match symbols, reading.outcome with
    | _, .error e => throw (.ofMisreading e)
    | [], .ok _ => throw (.misread .noRules finish)
    | start :: _, .ok definitions => return ofDefinitions start (symbols.zip definitions)

end Grammar
end ShiftReduce

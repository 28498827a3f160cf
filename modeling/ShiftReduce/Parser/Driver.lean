import ShiftReduce.Parser

/-!
# Parser/Driver — one stack for many parses

A driver parses one input after the other on a stack of its own.  Acceptance and an unexpected token
clear the stack; any other failure leaves it as it was before the step, less the frames that a
reduction has taken off by then.  A parse resets the stack before it reads its first token.
-/

namespace ShiftReduce.Parser

variable {ε : Type}

/-- A table and the stack on which inputs are parsed with it. -/
structure Driver where
  table : Table
  stack : List Frame := []

/-- What is left of the stack when a run ends at a stage. -/
def leftover (t : Table) (c : Config ε) : List Frame :=
  match c.stack with
  | [] => []
  | top :: _ => match t.cell top.state c.lookahead.terminal with
    | .shift _ => c.stack
    | .reduce r => match t.rule? r with
      | none => c.stack
      | some rule => if c.stack.length ≤ rule.size then c.stack else c.stack.drop rule.size
    | .accept | .error | .goto _ => []

namespace Driver

/-- The driver at the beginning of a parse. -/
def reset (d : Driver) : Driver := { d with stack := [⟨StateId.initial, none⟩] }

/-- Runs at most `fuel` steps on the driver's stack; `lookups` holds the cells looked up so far, the
last one first. -/
def runFrom : Nat → Driver → Lookahead → Input ε → List Lookup →
    (List Lookup × Option (Answer ε)) × Driver
  | 0, d, _, _, lookups => ((lookups, none), d)
  | fuel + 1, d, lookahead, input, lookups =>
    let c : Config ε := ⟨d.stack, lookahead, input⟩
    let (new, outcome) := step d.table c
    let lookups := new.reverse ++ lookups
    match outcome with
    | .next c => runFrom fuel { d with stack := c.stack } c.lookahead c.input lookups
    | .accepted node => ((lookups, some (.ok node)), { d with stack := leftover d.table c })
    | .failed e => ((lookups, some (.error e)), { d with stack := leftover d.table c })

/-- Parses a list of tokens in at most `fuel` steps, and tells the cells looked up, in order. -/
def parse (d : Driver) (fuel : Nat) (tokens : List (Except ε Token)) :
    (List Lookup × Option (Answer ε)) × Driver :=
  let d := d.reset
  match Input.read d.table ⟨tokens, .start⟩ with
  | .error e => (([], some (.error e)), d)
  | .ok (lookahead, input) =>
    let ((lookups, answer), d) := d.runFrom fuel lookahead input []
    ((lookups.reverse, answer), d)

/-- Parses inputs one after the other. -/
def parseAll (d : Driver) (fuel : Nat) :
    List (List (Except ε Token)) → List (List Lookup × Option (Answer ε))
  | [] => []
  | tokens :: inputs => let (result, d) := d.parse fuel tokens; result :: d.parseAll fuel inputs

end Driver
end ShiftReduce.Parser

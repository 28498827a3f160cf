/-!
# Limits — how large an automaton may grow

Each limit bounds the size of one thing that the construction builds; the construction fails as soon
as one is exceeded.
-/

namespace ShiftReduce

/-- Upper bounds on what the construction of an automaton builds. -/
structure Limits where
  states : Nat := 1024
  /-- The rules, the augmented start rule among them. -/
  rules : Nat := 256
  labelledRules : Nat := 4096
  /-- The symbols of one right-hand side. -/
  rightHandSide : Nat := 16
  /-- The symbols of the grammar, and those together with the labels. -/
  symbols : Nat := 8192
deriving DecidableEq, Repr

end ShiftReduce

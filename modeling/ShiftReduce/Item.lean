import ShiftReduce.Analysis
import ShiftReduce.Reachability

/-!
# Item — rules matched up to a dot, and sets of them

A state is a set of items in two parts: the kernel, by which states are told apart, and the items
that the kernel calls for.  `State.closure` adds, for every nonterminal that can stand at the front
of what follows a dot of the kernel, its rules with the dot in front.
-/

namespace ShiftReduce

/-- A rule matched up to a dot. -/
structure Item where
  rule : RuleId
  dot : Nat
deriving DecidableEq, Repr

namespace Item

/-- The symbol behind the dot. -/
def next? (rules : Array Rule) (i : Item) : Option SymbolId :=
  (rules[i.rule]?).bind fun rule => rule.rhs[i.dot]?

/-- Whether the dot is at the end of the rule. -/
def isComplete (rules : Array Rule) (i : Item) : Bool :=
  match rules[i.rule]? with
  | some rule => i.dot == rule.rhs.length
  | none => false

/-- The item with the dot behind the next symbol. -/
def advance (i : Item) : Item := { i with dot := i.dot + 1 }

/-- The completed start rule, which is accepted. -/
def accepted : Item := ⟨RuleId.start, 1⟩

/-- An item as text; a dot beyond the rule's end is not shown. -/
def render (rules : Array Rule) (symbols : Registry) (i : Item) : String :=
  match rules[i.rule]? with
  | none => ""
  | some rule =>
    let parts := rule.rhs.zipIdx.map fun (x, n) =>
      (if n = i.dot then " . " else " ") ++ symbols.render x
    symbols.render rule.lhs ++ " ->" ++ String.join parts
      ++ (if i.isComplete rules then " ." else "")

end Item

/-- A set of items: the kernel, and the items added to it. -/
structure State where
  kernel : List Item
  added : List Item
deriving DecidableEq, Repr

namespace State

/-- The items, those of the kernel first. -/
def items (s : State) : List Item := s.kernel ++ s.added

/-- Whether a kernel has the items of a list and no others. -/
def hasKernel (s : State) (items : List Item) : Bool :=
  items.all s.kernel.contains && s.kernel.all items.contains

/-- The completed items. -/
def completed (rules : Array Rule) (s : State) : List Item := s.items.filter (·.isComplete rules)

/-! ## Closure -/

/-- The nonterminals behind the dots of some items. -/
def expected (rules : Array Rule) (a : Analysis) (items : List Item) : List SymbolId :=
  (items.filterMap (·.next? rules)).filter (!a.isTerminal ·)

/-- The rules of a nonterminal with the dot in front. -/
def predicted (a : Analysis) (x : SymbolId) : List Item := (a.rulesFor x).map (⟨·, 0⟩)

/-- The nonterminals that can stand in front of what follows a dot of the kernel. -/
def leading (rules : Array Rule) (a : Analysis) (kernel : List Item) : List SymbolId :=
  Reachability.explore (fun x => expected rules a (predicted a x)) a.symbolCount
    (expected rules a kernel)

/-- The state of a kernel. -/
def closure (rules : Array Rule) (a : Analysis) (kernel : List Item) : State where
  kernel := kernel.eraseDups
  added := ((leading rules a kernel).flatMap (predicted a)).filter (!kernel.contains ·)

/-! ## Transitions -/

/-- The symbols behind the dots, in the order of the items. -/
def nextSymbols (rules : Array Rule) (s : State) : List SymbolId :=
  (s.items.filterMap (·.next? rules)).eraseDups

/-- The kernel of the state behind `x`: the items with `x` behind the dot, advanced. -/
def advanceOver (rules : Array Rule) (s : State) (x : SymbolId) : List Item :=
  (s.items.filter fun i => i.next? rules == some x).map Item.advance

end State
end ShiftReduce

import ShiftReduce.Parser.Driver
import ShiftReduce.Proofs.Action
import ShiftReduce.Proofs.Run

/-!
# Proofs/Faults — a parser's operations that might have no result

Some operations have a result only under a condition: reading a list at an index, subtracting,
splitting a stack at a depth.  The machine here makes each of them as an operation that may fault
(`Fault`), on a stack with its bottom first, and looks up the positions of an action by their
numbers.  Its guards come before those operations, so it never faults, and it answers what the
parser answers, whatever the table is (`Faulting.step_eq`, `Faulting.run_eq`).
-/

namespace ShiftReduce

/-- An operation without a result. -/
inductive Fault where
  | index (index size : Nat)
  | underflow (minuend subtrahend : Nat)
  | range (start size : Nat)
deriving DecidableEq, Repr

namespace Fault

variable {α : Type}

/-- The element at an index. -/
def get (xs : List α) (index : Nat) : Except Fault α :=
  match xs[index]? with
  | some x => .ok x
  | none => .error (.index index xs.length)

/-- The difference of two numbers. -/
def sub (m n : Nat) : Except Fault Nat := if n ≤ m then .ok (m - n) else .error (.underflow m n)

/-- The elements before an index and those from it on. -/
def splitAt (xs : List α) (start : Nat) : Except Fault (List α × List α) :=
  if start ≤ xs.length then .ok (xs.take start, xs.drop start)
  else .error (.range start xs.length)

theorem get_eq {xs : List α} {index : Nat} {x : α} (h : xs[index]? = some x) :
    get xs index = .ok x := by
  simp only [get, h]

theorem sub_eq {m n : Nat} (h : n ≤ m) : sub m n = .ok (m - n) := if_pos h

theorem splitAt_eq {xs : List α} {start : Nat} (h : start ≤ xs.length) :
    splitAt xs start = .ok (xs.take start, xs.drop start) := if_pos h

end Fault

/-! ## Building nodes -/

namespace Action

/-- Whether a constructor takes so many positions.  A block takes as many as there are. -/
def Kind.takes : Kind → Nat → Bool
  | .block, _ => true
  | kind, found => kind.arity.contains found

/-- A computation that takes children away and may fault. -/
abbrev Faulting := StateT (List (Option Ast)) (ExceptT Problem (Except Fault))

namespace Faulting

open Taking

variable {α β : Type}

/-- A computation without faults. -/
def lift (m : Taking α) : Faulting α := fun children => ExceptT.mk (.ok (m children))

/-- An operation on numbers or lists. -/
def operation (m : Except Fault α) : Faulting α := fun children =>
  ExceptT.mk (m.map fun a => .ok (a, children))

/-- Takes the child at the `n`-th position. -/
def nth (positions : List Nat) (n : Nat) (take : Nat → Taking α) : Faulting α := do
  lift (take (← operation (Fault.get positions n)))

/-- The node of a constructor, its children taken by the numbers of their positions. -/
def build (kind : Kind) (positions : List Nat) (location : Location) : Faulting Ast :=
  let found := positions.length
  match kind with
  | .unary => do
    return .unary location (← nth positions 0 operator) (← nth positions 1 required)
  | .binary => do
    let lhs ← nth positions 0 required
    let op ← nth positions 1 operator
    return .binary location op lhs (← nth positions 2 required)
  | .assign => do
    return .assign location (← nth positions 0 required) (← nth positions 1 required)
  | .variable => do
    let name ← nth positions 0 ident
    return .variable location name (← if found = 2 then nth positions 1 optional else pure none)
  | .conditional => do
    let condition ← nth positions 0 required
    let first ← nth positions 1 required
    return .conditional location condition first
      (← if found = 3 then nth positions 2 optional else pure none)
  | .forLoop => do
    let name ← nth positions 0 ident
    let first ← nth positions 1 required
    if found = 5 then
      let step ← nth positions 2 required
      let last ← nth positions 3 required
      return .forLoop location name first last (some step) (← nth positions 4 required)
    else
      let last ← nth positions 2 required
      return .forLoop location name first last none (← nth positions 3 required)
  | .whileLoop => do
    return .whileLoop location (← nth positions 0 required) (← nth positions 1 required)
  | .call => do
    let callee ← nth positions 0 ident
    return .call location callee (← if found = 2 then nth positions 1 nodes else pure [])
  | .function => do
    let name ← nth positions 0 ident
    let parameters ← if found = 3 then nth positions 1 idents else pure []
    let last ← operation (Fault.sub found 1)
    return .function location name parameters (← nth positions last required)
  | .record => do
    let name ← nth positions 0 ident
    return .record location name (← if found = 2 then nth positions 1 nodes else pure [])
  | .block => do
    return .block location (← (List.range found).mapM fun n => nth positions n nodes).flatten

/-- Runs an action on the children of a reduction, its positions counted first. -/
def reduce (action : Action) (children : List (Option Ast)) (location : Location) :
    Except Fault (Except Error (Option Ast)) :=
  match action.kind with
  | none =>
    if children.isEmpty ∧ action.indexes.isEmpty then .ok (.ok none)
    else .ok (((optional (action.indexes.headD 0)).run' children).mapError (⟨none, ·⟩))
  | some kind =>
    if kind.takes action.indexes.length then
      let location := (children.findSome? fun child => child.map Ast.location).getD location
      ((build kind action.indexes location).run' children).run.map fun result =>
        (result.map some).mapError (⟨some kind, ·⟩)
    else .ok (.error ⟨some kind, .arity kind.arity action.indexes.length⟩)

/-! ### Without faults -/

@[simp] theorem lift_pure (a : α) : lift (pure a) = pure a := rfl

theorem lift_bind (m : Taking α) (f : α → Taking β) :
    lift (m >>= f) = lift m >>= fun a => lift (f a) := by
  funext children
  have hleft : lift (m >>= f) children =
      ExceptT.mk (.ok (m children >>= fun p => f p.1 p.2)) := rfl
  have hright : (lift m >>= fun a => lift (f a)) children =
      (ExceptT.mk (.ok (m children)) : ExceptT Problem (Except Fault) _) >>=
        fun p => lift (f p.1) p.2 := rfl
  rw [hleft, hright]
  cases m children <;> rfl

theorem lift_mapM {f : Nat → Taking α} (is : List Nat) :
    lift (is.mapM f) = is.mapM fun i => lift (f i) := by
  induction is with
  | nil => rfl
  | cons i is ih => simp only [List.mapM_cons, lift_bind, lift_pure, ih]

theorem nth_eq {positions : List Nat} {n i : Nat} (h : positions[n]? = some i)
    (take : Nat → Taking α) : nth positions n take = lift (take i) := by
  unfold nth
  rw [Fault.get_eq h]
  rfl

/-- Counting through the rest of a list takes its positions one by one. -/
theorem mapM_nth_append (take : Nat → Taking α) (before after : List Nat) :
    (List.range' before.length after.length).mapM (fun n => nth (before ++ after) n take) =
      lift (after.mapM take) := by
  rw [lift_mapM]
  induction after generalizing before with
  | nil => rfl
  | cons i after ih =>
    have hfirst : (before ++ i :: after)[before.length]? = some i := by simp
    have hrest := ih (before ++ [i])
    rw [List.append_cons, List.length_cons, List.range'_succ, List.mapM_cons, List.mapM_cons]
    rw [List.append_cons] at hfirst
    rw [nth_eq hfirst, ← hrest, List.length_append, List.length_singleton]

theorem mapM_nth (take : Nat → Taking α) (positions : List Nat) :
    (List.range positions.length).mapM (fun n => nth positions n take) =
      lift (positions.mapM take) := by
  rw [List.range_eq_range']
  exact mapM_nth_append take [] positions

/-- **A constructor finds the positions it counts.** -/
theorem build_eq {kind : Kind} {positions : List Nat} (location : Location)
    (h : kind.takes positions.length = true) :
    build kind positions location = lift (Action.build kind positions location) := by
  cases kind with
  | unary | assign | whileLoop =>
    match positions, Arity.eq_of_contains h with
    | [_, _], _ =>
      simp only [Action.build, lift_bind]
      rfl
  | binary =>
    match positions, Arity.eq_of_contains h with
    | [_, _, _], _ =>
      simp only [Action.build, lift_bind]
      rfl
  | «variable» | call | record =>
    match positions, Arity.eq_or_eq_of_contains h with
    | [_], _ | [_, _], _ =>
      simp only [Action.build, lift_bind]
      rfl
  | conditional | function =>
    match positions, Arity.eq_or_eq_of_contains h with
    | [_, _], _ | [_, _, _], _ =>
      simp only [Action.build, lift_bind]
      rfl
  | forLoop =>
    match positions, Arity.eq_or_eq_of_contains h with
    | [_, _, _, _], _ | [_, _, _, _, _], _ =>
      simp only [Action.build, lift_bind]
      rfl
  | block =>
    simp only [Action.build, lift_bind, ← mapM_nth]
    rfl

/-- A constructor that does not take so many positions refuses them. -/
theorem build_of_not_takes {kind : Kind} {positions : List Nat} (location : Location)
    (h : ¬ kind.takes positions.length = true) :
    Action.build kind positions location = throw (.arity kind.arity positions.length) := by
  cases kind with
  | block => exact absurd rfl h
  | unary | assign | whileLoop =>
    match positions with
    | [_, _] => exact absurd rfl h
    | [] | [_] | _ :: _ :: _ :: _ => rfl
  | binary =>
    match positions with
    | [_, _, _] => exact absurd rfl h
    | [] | [_] | [_, _] | _ :: _ :: _ :: _ :: _ => rfl
  | «variable» | call | record =>
    match positions with
    | [_] | [_, _] => exact absurd rfl h
    | [] | _ :: _ :: _ :: _ => rfl
  | conditional | function =>
    match positions with
    | [_, _] | [_, _, _] => exact absurd rfl h
    | [] | [_] | _ :: _ :: _ :: _ :: _ => rfl
  | forLoop =>
    match positions with
    | [_, _, _, _] | [_, _, _, _, _] => exact absurd rfl h
    | [] | [_] | [_, _] | [_, _, _] | _ :: _ :: _ :: _ :: _ :: _ :: _ => rfl

theorem run'_lift (m : Taking α) (children : List (Option Ast)) :
    ((lift m).run' children).run = .ok (m.run' children) := by
  have hlift : ((lift m).run' children).run =
      ExceptT.run (Prod.fst <$> (ExceptT.mk (.ok (m children)))) := rfl
  have hrun : m.run' children = Prod.fst <$> m children := rfl
  rw [hlift, hrun]
  cases m children <;> rfl

/-- **An action never faults**, and has the result it has with its positions matched. -/
theorem reduce_eq (action : Action) (children : List (Option Ast)) (location : Location) :
    reduce action children location = .ok (action.reduce children location) := by
  obtain ⟨kind, positions⟩ := action
  cases kind with
  | none =>
    unfold reduce
    match positions, children with
    | [], [] | [], _ :: _ | _ :: _, [] | _ :: _, _ :: _ => rfl
  | some kind =>
    unfold reduce
    dsimp only
    split
    · next h =>
      rw [build_eq _ h, run'_lift]
      rfl
    · next h =>
      unfold Action.reduce
      dsimp only
      rw [build_of_not_takes _ h]
      rfl

end Faulting
end Action

/-! ## Steps -/

namespace Parser

variable {ε : Type} {t : Table}

namespace Faulting

/-- A reduction on a stack with its bottom first. -/
def reduce (t : Table) (r : RuleId) (stack : List Frame) (lookahead : Lookahead)
    (input : Input ε) : Except Fault (List Lookup × Outcome ε) :=
  match t.rule? r with
  | none => .ok ([], .failed (.unknownRule r))
  | some rule =>
    if stack.length ≤ rule.size then .ok ([], .failed .emptyStack)
    else do
      let (below, popped) ← Fault.splitAt stack (← Fault.sub stack.length rule.size)
      match ← Action.Faulting.reduce rule.action (popped.map Frame.node)
        lookahead.token.location with
      | .error e => .ok ([], .failed (.action e))
      | .ok node =>
        match below.getLast? with
        | none => .ok ([], .failed .emptyStack)
        | some top =>
          let cell := t.cell top.state rule.lhs
          .ok ([⟨top.state, rule.lhs, cell⟩],
            match cell.goto? with
            | some q => .next ⟨(below ++ [Frame.mk q node]).reverse, lookahead, input⟩
            | none => .failed (.missingGoto top.state rule.lhs))

/-- One step, on a stack with its bottom first. -/
def step (t : Table) (c : Config ε) : Except Fault (List Lookup × Outcome ε) :=
  let stack := c.stack.reverse
  match stack.getLast? with
  | none => .ok ([], .failed .emptyStack)
  | some top =>
    let x := c.lookahead.terminal
    let location := c.lookahead.token.location
    let cell := t.cell top.state x
    let lookup : Lookup := ⟨top.state, x, cell⟩
    match cell with
    | .shift q => .ok ([lookup], shift t q c)
    | .reduce r => do
      let (lookups, outcome) ← reduce t r stack c.lookahead c.input
      .ok (lookup :: lookups, outcome)
    | .accept => .ok ([lookup], .accepted (top.node.getD (.block location [])))
    | .error | .goto _ =>
      .ok ([lookup], .failed (.unexpected top.state x ((t.symbolName? x).getD "") location))

/-- Runs at most `fuel` steps. -/
def runFrom (t : Table) : Nat → Config ε → List Lookup →
    Except Fault (List Lookup × Option (Answer ε))
  | 0, _, lookups => .ok (lookups, none)
  | fuel + 1, c, lookups => do
    let (new, outcome) ← step t c
    let lookups := new.reverse ++ lookups
    match outcome with
    | .next c => runFrom t fuel c lookups
    | .accepted node => .ok (lookups, some (.ok node))
    | .failed e => .ok (lookups, some (.error e))

/-- Parses a list of tokens in at most `fuel` steps, and tells the cells looked up, in order. -/
def run (t : Table) (fuel : Nat) (tokens : List (Except ε Token)) :
    Except Fault (List Lookup × Option (Answer ε)) :=
  match initial t tokens with
  | .error e => .ok ([], some (.error e))
  | .ok c => do
    let (lookups, answer) ← runFrom t fuel c []
    .ok (lookups.reverse, answer)

/-- **A reduction never faults**: it takes no more frames than there are above the bottom. -/
theorem reduce_eq (t : Table) (r : RuleId) (c : Config ε) :
    reduce t r c.stack.reverse c.lookahead c.input = .ok (Parser.reduce t r c) := by
  unfold reduce Parser.reduce
  cases hrule : t.rule? r with
  | none => rfl
  | some rule =>
    dsimp only
    by_cases hsize : c.stack.length ≤ rule.size
    · rw [List.length_reverse, if_pos hsize, List.drop_eq_nil_of_le hsize]
    · obtain ⟨top, below, hdrop⟩ := List.exists_cons_of_ne_nil
        fun h => hsize (List.drop_eq_nil_iff.1 h)
      have hle : rule.size ≤ c.stack.length := Nat.le_of_not_le hsize
      have hsub : c.stack.length - (c.stack.length - rule.size) = rule.size := Nat.sub_sub_self hle
      have hbelow : c.stack.reverse.take (c.stack.length - rule.size) = (top :: below).reverse := by
        rw [List.take_reverse, hsub, hdrop]
      have hpopped : c.stack.reverse.drop (c.stack.length - rule.size) =
          (c.stack.take rule.size).reverse := by
        rw [List.drop_reverse, hsub]
      have hstart : c.stack.length - rule.size ≤ c.stack.reverse.length := by
        rw [List.length_reverse]
        exact Nat.sub_le ..
      rw [List.length_reverse, if_neg hsize, Fault.sub_eq hle, hdrop]
      simp only [bind, Except.bind, Fault.splitAt_eq hstart, hbelow, hpopped,
        Action.Faulting.reduce_eq, List.map_reverse, List.getLast?_reverse, List.head?_cons]
      cases rule.action.reduce ((c.stack.take rule.size).map Frame.node).reverse
        c.lookahead.token.location with
      | error e => rfl
      | ok node =>
        have hpush : ∀ frame : Frame, ((top :: below).reverse ++ [frame]).reverse =
            frame :: top :: below := fun frame => by simp
        cases (t.cell top.state rule.lhs).goto? with
        | none => rfl
        | some q => simp only [hpush]

/-- **A step never faults.** -/
theorem step_eq (t : Table) (c : Config ε) : step t c = .ok (Parser.step t c) := by
  unfold step Parser.step
  dsimp only
  rw [List.getLast?_reverse]
  cases hstack : c.stack with
  | nil => rfl
  | cons top below =>
    rw [List.head?_cons]
    dsimp only
    cases hcell : t.cell top.state c.lookahead.terminal with
    | reduce r =>
      dsimp only
      rw [← hstack, reduce_eq]
      rfl
    | shift | accept | error | goto => rfl

theorem runFrom_eq (t : Table) (fuel : Nat) (c : Config ε) (lookups : List Lookup) :
    runFrom t fuel c lookups = .ok (Parser.runFrom t fuel c lookups) := by
  induction fuel generalizing c lookups with
  | zero => rfl
  | succ fuel ih =>
    unfold runFrom Parser.runFrom
    rw [step_eq]
    obtain ⟨new, outcome⟩ := Parser.step t c
    cases outcome with
    | next c' => exact ih c' _
    | accepted | failed => rfl

/-- **A run never faults**, and answers what the parser answers. -/
theorem run_eq (t : Table) (fuel : Nat) (tokens : List (Except ε Token)) :
    run t fuel tokens = .ok (Parser.run t fuel tokens) := by
  unfold run Parser.run
  cases initial t tokens with
  | error e => rfl
  | ok c =>
    dsimp only
    rw [runFrom_eq]
    rfl

end Faulting

/-! ## Stages -/

/-- The bottom of the stack: the initial state, and no node. -/
def bottom : Frame := ⟨StateId.initial, none⟩

theorem stack_of_initial {tokens : List (Except ε Token)} {c : Config ε}
    (h : initial t tokens = .ok c) : c.stack = [bottom] := by
  obtain ⟨⟨a, input⟩, -, h⟩ := Except.bind_eq_ok h
  obtain rfl := Except.ok.inj h
  rfl

/-- A move leaves the bottom alone: a reduction takes fewer frames than there are. -/
theorem Makes.getLast?_eq {c c' : Config ε} {m : Move} (h : Makes t c m c') :
    c'.stack.getLast? = c.stack.getLast? := by
  cases h with
  | shift => exact List.getLast?_cons_cons
  | @reduce top p below rest a input r rule node q hcell hrule hdrop haction hgoto =>
    calc (⟨q, node⟩ :: p :: rest).getLast?
      _ = (p :: rest).getLast? := List.getLast?_cons_cons
      _ = ((top :: below).drop rule.size).getLast? := by rw [hdrop]
      _ = (top :: below).getLast? := by
        rw [List.getLast?_drop, if_neg]
        intro hle
        rw [List.drop_eq_nil_of_le hle] at hdrop
        exact nomatch hdrop

theorem Reaches.getLast?_eq {c c' : Config ε} {ms : List Move} (h : Reaches t c ms c') :
    c'.stack.getLast? = c.stack.getLast? := by
  induction h with
  | refl => rfl
  | head h _ ih => exact ih.trans h.getLast?_eq

theorem terminal?_of_read {input input' : Input ε} {a : Lookahead}
    (h : input.read t = .ok (a, input')) :
    t.terminal? a.token.kind.terminal = some a.terminal := by
  obtain ⟨⟨token, input₁⟩, -, h⟩ := Except.bind_eq_ok h
  dsimp only at h
  split at h
  · next terminal hterminal =>
    obtain ⟨rfl, -⟩ := Prod.mk.inj (Except.ok.inj h)
    exact hterminal
  · exact nomatch h

/-- The lookahead stands for a terminal of the table at every stage. -/
theorem Reaches.terminal?_eq {c c' : Config ε} {ms : List Move} (h : Reaches t c ms c')
    (hc : t.terminal? c.lookahead.token.kind.terminal = some c.lookahead.terminal) :
    t.terminal? c'.lookahead.token.kind.terminal = some c'.lookahead.terminal := by
  induction h with
  | refl => exact hc
  | head h _ ih =>
    refine ih ?_
    cases h with
    | shift _ hread => exact terminal?_of_read hread
    | reduce => exact hc

/-- A table makes a parser run out of frames by a reduction that asks for all of them, or more. -/
theorem step_emptyStack_iff {c : Config ε} (hne : c.stack ≠ []) :
    (step t c).2 = .failed .emptyStack ↔ ∃ top below r rule, c.stack = top :: below ∧
      t.cell top.state c.lookahead.terminal = .reduce r ∧ t.rule? r = some rule ∧
      c.stack.length ≤ rule.size := by
  constructor
  · intro h
    generalize he : (Error.emptyStack : Error ε) = e at h
    cases fails_of_step (Prod.ext rfl h) with
    | nothing hs => exact absurd hs hne
    | read _ _ hread =>
      subst he
      rcases Input.eq_of_read_error hread with ⟨_, h⟩ | ⟨_, _, h⟩ <;> cases h
    | emptied hs hcell hrule hdrop =>
      exact ⟨_, _, _, _, hs, hcell, hrule, hs ▸ List.drop_eq_nil_iff.1 hdrop⟩
    | unknownRule | action | missingGoto | unexpected => cases he
  · rintro ⟨top, below, r, rule, hs, hcell, hrule, hle⟩
    simp only [step, hs, hcell, reduce, hrule, List.drop_eq_nil_of_le (hs ▸ hle)]

/-- What a run leaves on the stack has the bottom below it, unless the stack has been cleared. -/
theorem getLast?_leftover (c : Config ε) :
    (leftover t c).getLast? = c.stack.getLast? ∨ leftover t c = [] ∧
      ((∃ node, (step t c).2 = .accepted node) ∨
        ∃ q x name location, (step t c).2 = .failed (.unexpected q x name location)) := by
  unfold leftover step
  cases hs : c.stack with
  | nil => exact .inl rfl
  | cons top below =>
    dsimp only
    cases hcell : t.cell top.state c.lookahead.terminal with
    | shift => exact .inl rfl
    | accept => exact .inr ⟨rfl, .inl ⟨_, rfl⟩⟩
    | error | goto => exact .inr ⟨rfl, .inr ⟨_, _, _, _, rfl⟩⟩
    | reduce r =>
      refine .inl ?_
      dsimp only
      split
      · rfl
      · split
        · rfl
        · next hsize => rw [List.getLast?_drop, if_neg hsize]

end Parser

/-! ## Flat tables -/

open ShiftReduce.Parser

namespace FlatTable

variable {ε : Type} {t : FlatTable}

/-- A terminal of a flat table is one of its symbols, and named so. -/
theorem of_terminal? {name : String} {x : SymbolId} (h : t.terminal? name = some x) :
    x < t.terminalCount ∧ t.symbols[x]? = some name := by
  unfold terminal? at h
  split at h
  · obtain ⟨hfind, hlt⟩ := Option.filter_eq_some_iff.1 h
    obtain ⟨hsize, hname, -⟩ := Array.findIdx?_eq_some_iff_getElem.1 hfind
    exact ⟨of_decide_eq_true hlt,
      (Array.getElem?_eq_getElem hsize).trans (congrArg some (eq_of_beq hname))⟩
  · exact nomatch h

/-- What holds at every stage of a run, whatever the arrays of the table hold. -/
structure Guarded (t : FlatTable) (c : Parser.Config ε) : Prop where
  /-- The initial state stays at the bottom, without a node. -/
  bottom : c.stack.getLast? = some bottom
  /-- The lookahead is a terminal that the table has a name for. -/
  lookahead : c.lookahead.terminal < t.terminalCount ∧
    t.symbols[c.lookahead.terminal]? = some c.lookahead.token.kind.terminal
  /-- No operation of the step is without a result. -/
  faultless : Faulting.step t.table c = .ok (step t.table c)
  /-- The step makes a move, accepts, or fails for a cause. -/
  comes : Comes t.table c (step t.table c)
  /-- The stack runs out if a reduction asks for as many symbols as it has entries, or more. -/
  emptyStack_iff : (step t.table c).2 = .failed .emptyStack ↔
    ∃ top below r rule, c.stack = top :: below ∧
      t.cell top.state c.lookahead.terminal = .reduce r ∧ t.rules[r]? = some rule ∧
      c.stack.length ≤ rule.rhs.length
  /-- Reading fails for an error in the input, or for a token that is no terminal of the table. -/
  read_error {e : Error ε} (h : c.input.read t.table = .error e) :
    (∃ inner, e = .lexer inner) ∨ ∃ name location, e = .unknownTerminal name location
  /-- Acceptance and an unexpected token clear the stack; nothing else takes its bottom. -/
  leftover : (leftover t.table c).getLast? = some Parser.bottom ∨ leftover t.table c = [] ∧
    ((∃ node, (step t.table c).2 = .accepted node) ∨
      ∃ q x name location, (step t.table c).2 = .failed (.unexpected q x name location))

/-- **A flat table never makes a parser fault**, however its arrays are filled.  Whatever has no
result is guarded, and each guard has its own error. -/
theorem guarded_of_reaches (t : FlatTable) (tokens : List (Except ε Token)) :
    (∀ fuel, Faulting.run t.table fuel tokens = .ok (run t.table fuel tokens)) ∧
    (∀ e, initial t.table tokens = .error e →
      (∃ inner, e = .lexer inner) ∨ ∃ name location, e = .unknownTerminal name location) ∧
    ∀ c₀ ms c, initial t.table tokens = .ok c₀ → Reaches t.table c₀ ms c → t.Guarded c := by
  refine ⟨fun fuel => Faulting.run_eq t.table fuel tokens, fun e h => ?_, fun c₀ ms c hc hr => ?_⟩
  · rcases Except.bind_eq_error h with hread | ⟨_, -, hread⟩
    · exact Input.eq_of_read_error hread
    · exact nomatch hread
  · have hbottom : c.stack.getLast? = some Parser.bottom := by
      rw [hr.getLast?_eq, stack_of_initial hc]
      rfl
    have hread : t.terminal? c₀.lookahead.token.kind.terminal = some c₀.lookahead.terminal := by
      obtain ⟨⟨a, input⟩, hread, h⟩ := Except.bind_eq_ok hc
      obtain rfl := Except.ok.inj h
      exact terminal?_of_read hread
    have hne : c.stack ≠ [] := by
      rintro h
      rw [h] at hbottom
      exact nomatch hbottom
    refine ⟨hbottom, of_terminal? (hr.terminal?_eq hread), Faulting.step_eq t.table c,
      comes_step t.table c, (step_emptyStack_iff hne).trans ⟨?_, ?_⟩, Input.eq_of_read_error,
      hbottom ▸ getLast?_leftover c⟩
    · rintro ⟨top, below, r, rule, hs, hcell, hrule, hle⟩
      obtain ⟨stored, hstored, rfl⟩ := Option.map_eq_some_iff.1 hrule
      exact ⟨top, below, r, stored, hs, hcell, hstored, hle⟩
    · rintro ⟨top, below, r, rule, hs, hcell, hrule, hle⟩
      exact ⟨top, below, r, rule.reduction, hs, hcell, Option.map_eq_some_iff.2 ⟨rule, hrule, rfl⟩,
        hle⟩

/-- Two rows of cells, the second of which is cut off.  Its rule has three symbols, of which its
action would take the tenth. -/
def ragged : FlatTable where
  symbols := #["EOF", "NUM"]
  terminalCount := 2
  rules := #[⟨9, [0, 0, 0], ⟨some .block, [10]⟩⟩]
  cells := #[(.error, 0), (.shift, 1), (.reduce, 0)]

/-- Where the rule asks for three symbols, the stack has two entries. -/
theorem guarded_of_reaches_ragged : ∃ (tokens : List (Except Unit Token))
    (c₀ c : Parser.Config Unit), initial ragged.table tokens = .ok c₀ ∧
    Reaches ragged.table c₀ [.shift 1] c ∧ ragged.Guarded c ∧
    (step ragged.table c).2 = .failed .emptyStack ∧
    Faulting.run ragged.table 2 tokens = .ok (run ragged.table 2 tokens) := by
  obtain ⟨hrun, -, hreaches⟩ :=
    guarded_of_reaches ragged [(.ok (.int 5 .start) : Except Unit Token)]
  have hinitial : initial ragged.table [(.ok (.int 5 .start) : Except Unit Token)] =
      .ok ⟨[bottom], ⟨.int 5 .start, 1⟩, ⟨[], .start⟩⟩ := by cbv
  have hread : Input.read ragged.table (⟨[], .start⟩ : Input Unit) =
      .ok (⟨.endOfInput .start, 0⟩, ⟨[], .start⟩) := by cbv
  have hr : Reaches ragged.table (⟨[bottom], ⟨.int 5 .start, 1⟩, ⟨[], .start⟩⟩ : Parser.Config Unit)
      [.shift 1] _ := .head (.shift rfl hread) (.refl _)
  have hguarded := hreaches _ _ _ hinitial hr
  exact ⟨_, _, _, hinitial, hr, hguarded,
    hguarded.emptyStack_iff.2 ⟨_, _, 0, _, rfl, rfl, rfl, by decide⟩, hrun 2⟩

end FlatTable
end ShiftReduce

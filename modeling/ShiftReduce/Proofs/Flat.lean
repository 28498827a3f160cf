import ShiftReduce.Proofs.Automaton
import ShiftReduce.Parser.Driver

/-!
# Proofs/Flat — stored tables drive the same parses

The rows of a generated table have a cell for each symbol, so a cell is found in the flat array
where its state and symbol say (`getElem?_flatten`), and no name is found twice among the symbols.
Hence a stored automaton answers every lookup as the automaton does, and a driver makes the same
parses with either, whatever an earlier parse has left on its stack (`Driver.parse_eq_run`).
-/

namespace ShiftReduce

/-! ## Rows in one array -/

theorem getElem?_flatten {α : Type} {width : Nat} {rows : List (List α)}
    (h : ∀ row ∈ rows, row.length = width) {x : Nat} (hx : x < width) (q : Nat) :
    rows.flatten[q * width + x]? = rows[q]?.bind (·[x]?) := by
  induction rows generalizing q with
  | nil => simp
  | cons row rows ih =>
    obtain ⟨hrow, hrows⟩ := List.forall_mem_cons.1 h
    rw [List.flatten_cons]
    cases q with
    | zero =>
      rw [Nat.zero_mul, Nat.zero_add, List.getElem?_append_left (hrow ▸ hx)]
      rfl
    | succ q =>
      have hindex : (q + 1) * width + x = row.length + (q * width + x) := by
        rw [hrow, Nat.succ_mul]
        omega
      rw [hindex, List.getElem?_append_right (Nat.le_add_right _ _), Nat.add_sub_cancel_left,
        ih hrows, List.getElem?_cons_succ]

namespace CellTable

/-- Every row has a cell for each of so many symbols. -/
def Wide (t : CellTable) (width : Nat) : Prop := ∀ row ∈ t.rows, row.size = width

theorem getElem?_cells {t : CellTable} {width : Nat} (h : t.Wide width) {x : SymbolId}
    (hx : x < width) (q : StateId) :
    t.cells[q * width + x]? = (t.rows[q]?).bind fun row => row[x]? := by
  have hlists : ∀ row ∈ t.rows.toList.map Array.toList, row.length = width := by
    intro cells hcells
    obtain ⟨row, hrow, rfl⟩ := List.mem_map.1 hcells
    exact h row (Array.mem_toList_iff.1 hrow)
  have hcells : t.cells.toList = (t.rows.toList.map Array.toList).flatten := by
    simp [cells]
  rw [← Array.getElem?_toList, hcells, getElem?_flatten hlists hx, List.getElem?_map,
    Array.getElem?_toList]
  cases t.rows[q]? with
  | none => rfl
  | some row => exact Array.getElem?_toList

theorem cell_of_le {t : CellTable} {width : Nat} (h : t.Wide width) {x : SymbolId}
    (hx : width ≤ x) (q : StateId) : t.cell q x = .error := by
  unfold cell
  cases hrow : t.rows[q]? with
  | none => rfl
  | some row =>
    have hsize := h row (Array.mem_of_getElem? hrow)
    rw [Option.bind_some, Array.getElem?_eq_none (hsize ▸ hx)]
    rfl

end CellTable

/-- Completing a table keeps the widths of its rows. -/
theorem Completion.size_of_completeRows {rules : Array Rule} {lookaheads : Lookaheads} {q : StateId}
    {states : List State} {rows rows' : List (Array Cell)} {conflicts : List Conflict}
    {width : Nat} (h : completeRows rules lookaheads q states rows = .ok (rows', conflicts))
    (hrows : ∀ row ∈ rows, row.size = width) : ∀ row ∈ rows', row.size = width := by
  induction states generalizing q rows rows' conflicts with
  | nil =>
    obtain ⟨rfl, -⟩ := Prod.mk.inj (Except.ok.inj h)
    exact hrows
  | cons state states ih =>
    cases rows with
    | nil =>
      obtain ⟨rfl, -⟩ := Prod.mk.inj (Except.ok.inj h)
      exact hrows
    | cons row rows =>
      obtain ⟨hrow, hrows⟩ := List.forall_mem_cons.1 hrows
      obtain ⟨⟨row₁, found⟩, h₁, h⟩ := Except.bind_eq_ok h
      obtain ⟨⟨rows₁, conflicts₁⟩, h₂, h⟩ := Except.bind_eq_ok h
      obtain ⟨rfl, -⟩ := Prod.mk.inj (Except.ok.inj h)
      have hsize := (installed_of_installAll h₁ error_not_mem_candidates).size
      exact List.forall_mem_cons.2 ⟨hsize.trans hrow, ih h₂ hrows⟩

theorem Collection.wide_table (c : Collection) (a : Analysis) :
    (c.table a).Wide a.symbolCount := by
  intro row hrow
  obtain ⟨ts, -, rfl⟩ := Array.mem_map.1 hrow
  exact size_rowOf ts

theorem Completion.wide_of_complete {rules : Array Rule} {states : Array State}
    {lookaheads : Lookaheads} {t : CellTable} {result : Result} {width : Nat}
    (h : complete rules states lookaheads t = .ok result) (ht : t.Wide width) :
    result.table.Wide width := by
  unfold complete at h
  split at h
  · exact nomatch h
  next rows conflicts hrows =>
  split at h
  · exact nomatch h
  obtain rfl := Except.ok.inj h
  intro row hrow
  exact size_of_completeRows hrows (fun row hrow => ht row (Array.mem_toList_iff.1 hrow)) row
    (by simpa using hrow)

/-! ## Names in one array -/

/-- The first place of a value is its number, as it has no other. -/
theorem Numbering.findIdx?_values {α : Type} [Ord α] [BEq α] [LawfulBEq α] (n : Numbering α)
    (a : α) : n.values.findIdx? (· == a) = n.number? a := by
  cases hnumber : n.number? a with
  | none =>
    refine Array.findIdx?_eq_none_iff.2 fun b hb => ?_
    obtain ⟨i, hi⟩ := Array.getElem?_of_mem hb
    by_contra hba
    obtain rfl : b = a := by simpa using hba
    exact absurd (hnumber.symm.trans (n.number?_value? hi)) nofun
  | some i =>
    have hi := Array.getElem?_eq_some_iff.1 (n.value?_number? hnumber)
    refine Array.findIdx?_eq_some_iff_getElem.2 ⟨hi.1, by simp [hi.2], fun j hj => ?_⟩
    by_contra hja
    have hvalue : n.value? j = some a := by
      have hjlt : j < n.values.size := Nat.lt_trans hj hi.1
      exact (Array.getElem?_eq_getElem hjlt).trans (congrArg some (by simpa using hja))
    exact Nat.ne_of_lt hj (eq_of_value?_eq hvalue (n.value?_number? hnumber))

/-! ## Lookups -/

/-- Two tables answer every lookup alike. -/
structure Table.Agrees (t t' : Table) : Prop where
  cell (q : StateId) (x : SymbolId) : t.cell q x = t'.cell q x
  goto? (q : StateId) (x : SymbolId) : t.goto? q x = t'.goto? q x
  rule? (r : RuleId) : t.rule? r = t'.rule? r
  terminal? (name : String) : t.terminal? name = t'.terminal? name
  symbolName? (x : SymbolId) : t.symbolName? x = t'.symbolName? x

/-- Such tables are one. -/
theorem Table.Agrees.eq {t t' : Table} (h : t.Agrees t') : t = t' := by
  obtain ⟨cell, rule?, terminal?, symbolName?⟩ := t
  obtain ⟨cell', rule?', terminal?', symbolName?'⟩ := t'
  obtain rfl : cell = cell' := funext fun q => funext (h.cell q)
  obtain rfl : rule? = rule?' := funext h.rule?
  obtain rfl : terminal? = terminal?' := funext h.terminal?
  obtain rfl : symbolName? = symbolName?' := funext h.symbolName?
  rfl

namespace Automaton

variable {config : Config} {registry : Registry} {source : String} {a : Automaton}

/-- The cells of a generated automaton have a row of all symbols for each state. -/
theorem wide_of_generate (h : generate config registry source = .ok a) :
    a.cells.Wide a.symbols.size := by
  obtain ⟨c, lookaheads, result, hp⟩ := parts_of_generate h
  have hcount : (analyze a.symbols a.rules).symbolCount = a.symbols.size := symbolCount_analyze
  rw [hp.cells, ← hcount]
  exact Completion.wide_of_complete hp.complete (c.wide_table _)

theorem cell_flat (h : a.cells.Wide a.symbols.size) (q : StateId) (x : SymbolId) :
    a.flat.cell q x = a.cells.cell q x := by
  have hsize : a.flat.symbols.size = a.symbols.size := rfl
  unfold FlatTable.cell
  rw [hsize]
  split
  · next hx =>
    have hcell : a.flat.cells[q * a.symbols.size + x]? =
        ((a.cells.rows[q]?).bind fun row => row[x]?).map Cell.parts := by
      rw [← CellTable.getElem?_cells h hx]
      exact Array.getElem?_map
    rw [hcell, CellTable.cell]
    cases (a.cells.rows[q]?).bind fun row => row[x]? with
    | none => rfl
    | some cell => exact Cell.ofParts_parts cell
  · next hx => rw [CellTable.cell_of_le h (Nat.le_of_not_lt hx)]

theorem terminal?_flat (name : String) : a.flat.terminal? name = a.symbols.terminal? name := by
  have hle : a.flat.terminalCount ≤ a.flat.symbols.size := a.symbols.terminalCount_le
  have hfind : a.flat.symbols.findIdx? (· == name) = a.symbols.symbol? name :=
    a.symbols.names.findIdx?_values name
  rw [FlatTable.terminal?, if_pos hle, hfind]
  rfl

/-- **A stored automaton answers every lookup as the automaton does.** -/
theorem agrees_flat (h : generate config registry source = .ok a) :
    a.flat.table.Agrees a.table where
  cell := cell_flat (wide_of_generate h)
  goto? q x := congrArg Cell.goto? (cell_flat (wide_of_generate h) q x)
  rule? r := by
    simp only [FlatTable.table, flat, table, Array.getElem?_map, Option.map_map]
    rfl
  terminal? := terminal?_flat
  symbolName? _ := rfl

end Automaton

/-! ## Drivers -/

namespace Parser.Driver

variable {ε : Type}

/-- A driver's steps are those of the machine, and they leave it its table. -/
theorem runFrom_eq (fuel : Nat) (d : Driver) (lookahead : Lookahead) (input : Input ε)
    (lookups : List Lookup) :
    (d.runFrom fuel lookahead input lookups).1 =
        Parser.runFrom d.table fuel ⟨d.stack, lookahead, input⟩ lookups ∧
      (d.runFrom fuel lookahead input lookups).2.table = d.table := by
  induction fuel generalizing d lookahead input lookups with
  | zero => exact ⟨rfl, rfl⟩
  | succ fuel ih =>
    rcases hstep : step d.table ⟨d.stack, lookahead, input⟩ with ⟨new, outcome⟩
    simp only [runFrom, Parser.runFrom, hstep]
    cases outcome with
    | next c => exact ih { d with stack := c.stack } c.lookahead c.input _
    | accepted node => exact ⟨rfl, rfl⟩
    | failed e => exact ⟨rfl, rfl⟩

/-- **What a driver answers does not depend on what is left on its stack.** -/
theorem parse_eq_run (d : Driver) (fuel : Nat) (tokens : List (Except ε Token)) :
    (d.parse fuel tokens).1 = run d.table fuel tokens := by
  unfold parse run initial
  cases hread : Input.read d.table ⟨tokens, .start⟩ with
  | error e => simp [reset, hread, bind, Except.bind]
  | ok next =>
    obtain ⟨lookahead, input⟩ := next
    obtain ⟨hrun, -⟩ := runFrom_eq fuel d.reset lookahead input []
    simp only [reset] at hrun
    simp [reset, hread, bind, Except.bind, ← hrun]

/-- A driver keeps its table. -/
theorem table_parse (d : Driver) (fuel : Nat) (tokens : List (Except ε Token)) :
    (d.parse fuel tokens).2.table = d.table := by
  unfold parse
  dsimp only
  split
  · rfl
  · exact (runFrom_eq fuel d.reset _ _ []).2

/-- **A driver parses every input as a fresh one does**, whatever it has parsed before. -/
theorem parseAll_eq_map (d : Driver) (fuel : Nat) (inputs : List (List (Except ε Token))) :
    d.parseAll fuel inputs = inputs.map (run d.table fuel) := by
  induction inputs generalizing d with
  | nil => rfl
  | cons tokens inputs ih =>
    simp only [parseAll, List.map_cons]
    rw [ih, table_parse, parse_eq_run]

end Parser.Driver

open ShiftReduce.Parser

/-- The tables through which an automaton can be used. -/
inductive Automaton.Serves (a : Automaton) : Table → Prop
  | table : a.Serves a.table
  | flat : a.Serves a.flat.table
  | pointer {t : Table} (h : a.Serves t) : a.Serves t.pointer

/-- **A stored automaton drives the same parses.**  It answers every lookup as the automaton does;
and through either, or a pointer to it, a driver makes the same lookups and gives the same answers
as a fresh driver of the automaton, input by input, whatever was left on its stack. -/
theorem Automaton.parseAll_of_serves {config : Config} {registry : Registry} {source : String}
    {a : Automaton} (h : generate config registry source = .ok a) :
    a.flat.table.Agrees a.table ∧
      ∀ {ε : Type} {t : Table} (_ : a.Serves t) (left : List Frame) (fuel : Nat)
        (inputs : List (List (Except ε Token))),
        Driver.parseAll ⟨t, left⟩ fuel inputs =
          inputs.map fun tokens => (Driver.parse ⟨a.table, []⟩ fuel tokens).1 := by
  have hflat := agrees_flat h
  refine ⟨hflat, fun {ε t} ht left fuel inputs => ?_⟩
  have heq : t = a.table := by
    induction ht with
    | table => rfl
    | flat => exact hflat.eq
    | pointer _ ih => exact (Table.pointer_eq _).trans ih
  rw [Driver.parseAll_eq_map, heq]
  exact List.map_congr_left fun tokens _ => (Driver.parse_eq_run _ fuel tokens).symm

/-- Sums parsed with the stored table behind a pointer, after an input that failed halfway and left
two frames on the stack. -/
theorem Automaton.parseAll_of_serves_sum : ∃ (a : Automaton) (cut whole : List (Except Unit Token)),
    cut = [.ok (.int 1 .start), .ok (.keyword "+" .start), .error ()] ∧
    whole = [.ok (.int 1 .start), .ok (.keyword "+" .start), .ok (.int 2 .start)] ∧
    generate {} .standard "s = s '+' NUM {binop 0 1 2} | NUM;" = .ok a ∧
    a.flat.table.Agrees a.table ∧ a.Serves a.flat.table.pointer ∧
    (Driver.parse ⟨a.flat.table, []⟩ 20 cut).2.stack.length = 2 ∧
    Driver.parseAll ⟨a.flat.table.pointer, []⟩ 20 [cut, whole] =
      [cut, whole].map fun tokens => (Driver.parse ⟨a.table, []⟩ 20 tokens).1 := by
  let cut : List (Except Unit Token) :=
    [.ok (.int 1 .start), .ok (.keyword "+" .start), .error ()]
  have hok : (generate {} .standard "s = s '+' NUM {binop 0 1 2} | NUM;").toOption.any (fun a =>
      (Driver.parse ⟨a.flat.table, []⟩ 20 cut).2.stack.length = 2) = true := by decide +kernel
  obtain ⟨a, ha, hleft⟩ := Except.exists_of_any_toOption hok
  obtain ⟨hagrees, hparses⟩ := parseAll_of_serves ha
  exact ⟨a, cut, _, rfl, rfl, ha, hagrees, .pointer .flat, of_decide_eq_true hleft,
    hparses (.pointer .flat) [] 20 _⟩

end ShiftReduce

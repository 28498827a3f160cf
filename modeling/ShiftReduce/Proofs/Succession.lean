import ShiftReduce.Proofs.Refinement
import ShiftReduce.Proofs.Settlement

/-!
# Proofs/Succession — who holds a cell after each conflict about it

A conflict is recorded when an action asks for a cell that is held already, and says who holds it
from then on.  So the conflicts about a cell are a succession of holders (`Succession`), each
displaced by the reduction of an earlier rule, and it is the last of them that names the action in
the table.  An earlier one names it as well unless what it kept was dropped later
(`tells_of_generate`), which three reductions are enough for (`exists_displaced`).
-/

namespace ShiftReduce

open ShiftReduce.Derivation Collection

namespace Completion

variable {q : StateId} {t : SymbolId} {current candidate cell first last : Cell} {c : Conflict}
  {conflict : Option Conflict} {reported : List Conflict}

/-! ## Holders of a cell -/

/-- The conflicts about a cell, from its first holder to its last. -/
inductive Succession : Cell → List Conflict → Cell → Prop
  | nil (cell : Cell) : Succession cell [] cell
  /-- The holder keeps the cell. -/
  | keeps {c : Conflict} {reported : List Conflict} {last : Cell}
    (h : Succession c.kept reported last) : Succession c.kept (c :: reported) last
  /-- The holder loses the cell to the reduction of an earlier rule. -/
  | loses {c : Conflict} {reported : List Conflict} {last : Cell} (hkind : c.kind = .reduceReduce)
    (hrank : rank c.kept < rank c.dropped) (h : Succession c.kept reported last) :
    Succession c.dropped (c :: reported) last

namespace Succession

theorem rank_le (h : Succession first reported last) : rank last ≤ rank first := by
  induction h with
  | nil => exact Nat.le_refl _
  | keeps _ ih => exact ih
  | loses _ hrank _ ih => exact Nat.le_of_lt (Nat.lt_of_le_of_lt ih hrank)

theorem eq_of_nil (h : Succession first [] last) : last = first := by
  cases h
  rfl

/-- The first holder is the last one, or it has been dropped for a lower rank. -/
theorem eq_or_dropped (h : Succession first reported last) :
    last = first ∨ rank last < rank first ∧ ∃ c ∈ reported, c.dropped = first := by
  induction h with
  | nil => exact .inl rfl
  | keeps _ ih => exact ih.imp_right fun ⟨hrank, c, hc, heq⟩ =>
      ⟨hrank, c, List.mem_cons_of_mem _ hc, heq⟩
  | loses _ hrank h _ =>
    exact .inr ⟨Nat.lt_of_le_of_lt h.rank_le hrank, _, List.mem_cons_self, rfl⟩

/-- What is left of a succession behind one of its conflicts. -/
theorem exists_suffix (h : Succession first reported last) (hc : c ∈ reported) :
    ∃ later ⊆ reported, Succession c.kept later last := by
  induction h with
  | nil => exact nomatch hc
  | keeps h ih | loses _ _ h ih =>
    rcases List.mem_cons.1 hc with rfl | hc
    · exact ⟨_, List.subset_cons_self _ _, h⟩
    · obtain ⟨later, hsub, hlater⟩ := ih hc
      exact ⟨later, List.subset_cons_of_subset _ hsub, hlater⟩

/-- **The last conflict names the last holder.** -/
theorem eq_kept_of_getLast? (h : Succession first reported last) (hc : reported.getLast? = some c) :
    last = c.kept := by
  induction h with
  | nil => exact nomatch hc
  | @keeps c' reported _ h ih | @loses c' reported _ _ _ h ih =>
    cases reported with
    | nil =>
      obtain rfl : c' = c := Option.some.inj hc
      exact h.eq_of_nil
    | cons => exact ih (by rwa [List.getLast?_cons_cons] at hc)

end Succession

/-! ## Installing -/

/-- **A round of the competition is the next conflict of the succession.** -/
theorem succession_of_compete (hne : current ≠ .error)
    (h : compete q t current candidate = .ok (cell, conflict))
    (hrest : Succession cell reported last) :
    Succession current (conflict.toList ++ reported) last := by
  unfold compete at h
  split at h
  · exact absurd rfl hne
  · obtain ⟨rfl, rfl⟩ := Prod.mk.inj (Except.ok.inj h)
    exact .keeps (c := ⟨q, t, .shiftReduce, _, candidate⟩) hrest
  · exact nomatch h
  all_goals
    split at h <;> obtain ⟨rfl, rfl⟩ := Prod.mk.inj (Except.ok.inj h)
    · next hrank => exact .loses (c := ⟨q, t, .reduceReduce, candidate, _⟩) rfl hrank hrest
    · exact .keeps (c := ⟨q, t, .reduceReduce, _, candidate⟩) hrest

variable {candidates : List Candidate} {row row' : Array Cell} {conflicts : List Conflict}

/-- **The conflicts about a cell are a succession of its holders.**  Its first holder is what it
holds before, or the first that asks for it if it is empty. -/
theorem exists_succession_of_installAll
    (h : installAll q candidates row = .ok (row', conflicts))
    (hcandidates : ∀ x, (x, Cell.error) ∉ candidates) (hrow : row[t]? = some current) :
    ∃ first last, row'[t]? = some last ∧ (current ≠ .error → first = current) ∧
      Succession first (reports conflicts q t) last := by
  induction candidates generalizing row current conflicts with
  | nil =>
    obtain ⟨rfl, rfl⟩ := Prod.mk.inj (Except.ok.inj h)
    exact ⟨current, current, hrow, fun _ => rfl, .nil current⟩
  | cons head rest ih =>
    obtain ⟨x, candidate⟩ := head
    obtain ⟨next, conflict, found, hnext, hinstall, rfl⟩ := exists_of_installAll_cons h
    have hrest : ∀ x, (x, Cell.error) ∉ rest := fun x hx =>
      hcandidates x (List.mem_cons_of_mem _ hx)
    rw [reports_append]
    by_cases hx : x = t
    · subst hx
      have hcandidate : candidate ≠ .error := fun h => hcandidates x (h ▸ List.mem_cons_self)
      have hset : (row.setIfInBounds x next)[x]? = some next :=
        Array.getElem?_setIfInBounds_self_of_lt (Array.getElem?_eq_some_iff.1 hrow).1
      obtain ⟨first, last, hlast, hfirst, hs⟩ := ih hinstall hrest hset
      obtain rfl := hfirst (cell_ne_error_of_compete hnext hcandidate)
      dsimp only at hnext
      rw [hrow, Option.getD_some] at hnext
      rw [reports_of_compete hnext]
      by_cases hne : current = .error
      · subst hne
        obtain ⟨rfl, rfl⟩ := Prod.mk.inj (Except.ok.inj hnext)
        exact ⟨_, last, hlast, fun h => absurd rfl h, hs⟩
      · exact ⟨current, last, hlast, fun _ => rfl, succession_of_compete hne hnext hs⟩
    · rw [reports_of_compete_ne hx hnext, List.nil_append]
      exact ih hinstall hrest (by rwa [Array.getElem?_setIfInBounds_ne hx])

/-! ## What a report tells -/

/-- What the conflicts about a cell tell of the action in it. -/
structure Tells (reported : List Conflict) (cell : Cell) : Prop where
  succession : ∃ first, Succession first reported cell
  /-- The last conflict keeps the action in the cell. -/
  last {c : Conflict} (h : reported.getLast? = some c) : cell = c.kept
  /-- A conflict with a shift keeps the action in the cell. -/
  shiftReduce {c : Conflict} (hc : c ∈ reported) (h : c.kind = .shiftReduce) : cell = c.kept
  /-- A conflict keeps the action in the cell unless what it keeps is dropped by another one. -/
  eq_kept_iff {c : Conflict} (hc : c ∈ reported) :
    cell = c.kept ↔ ∀ c' ∈ reported, c'.dropped ≠ c.kept
  /-- What was dropped by another one has lost to a lower rank. -/
  rank_lt {c : Conflict} (hc : c ∈ reported) (h : cell ≠ c.kept) : rank cell < rank c.kept

variable {asks : Cell → Prop} {before : Cell}

/-- **A succession tells the winner of a settled cell**: a shift is never displaced, and of the
reductions the winner alone is never dropped. -/
theorem Settled.tells (hs : Settled q t asks before cell reported)
    (hbefore : before = .error ∨ ∃ p, before = .shift p)
    (hasks : ∀ cell, asks cell → cell = .accept ∨ ∃ r, r ≠ RuleId.start ∧ cell = .reduce r)
    (hsuccession : Succession first reported cell) : Tells reported cell := by
  rcases hbefore with hbefore | ⟨p, hbefore⟩
  · obtain ⟨hkinds, -, hdropped⟩ := hs.reduceReduce hbefore
    have hlost {c : Conflict} (hc : c ∈ reported) :
        cell = c.kept ∨ rank cell < rank c.kept ∧ ∃ c' ∈ reported, c'.dropped = c.kept := by
      obtain ⟨later, hsub, hlater⟩ := hsuccession.exists_suffix hc
      exact hlater.eq_or_dropped.imp_right fun ⟨hrank, c', hc', heq⟩ =>
        ⟨hrank, c', hsub hc', heq⟩
    refine ⟨⟨first, hsuccession⟩, hsuccession.eq_kept_of_getLast?, fun {c} hc h => ?_,
      fun {c} hc => ⟨fun h c' hc' heq => ?_, fun h => ?_⟩, fun {c} hc h => ?_⟩
    · rw [hkinds c hc] at h
      exact nomatch h
    · exact ((hdropped c'.dropped).1 (List.mem_map_of_mem hc')).2 (heq.trans h.symm)
    · exact (hlost hc).resolve_right fun ⟨_, c', hc', heq⟩ => h c' hc' heq
    · exact ((hlost hc).resolve_left h).1
  · obtain ⟨-, hreported⟩ := hs.shiftReduce hbefore
    have hcell := hs.shift hbefore
    have hkept {c : Conflict} (hc : c ∈ reported) : cell = c.kept := by
      obtain ⟨cell', -, rfl⟩ := (hreported c).1 hc
      exact hcell
    refine ⟨⟨first, hsuccession⟩, hsuccession.eq_kept_of_getLast?, fun hc _ => hkept hc,
      fun {c} hc => iff_of_true (hkept hc) fun c' hc' heq => ?_,
      fun hc h => absurd (hkept hc) h⟩
    obtain ⟨cell', hasked, rfl⟩ := (hreported c').1 hc'
    have hshift : cell' = .shift p := heq.trans ((hkept hc).symm.trans hcell)
    rcases hasks cell' hasked with rfl | ⟨r, -, rfl⟩ <;> exact nomatch hshift

theorem Tells.of_nil (cell : Cell) : Tells [] cell :=
  ⟨⟨cell, .nil cell⟩, nofun, nofun, nofun, nofun⟩

variable {rules : Array Rule} {lookaheads : Lookaheads} {terminalCount : Nat}
  {states : Array State} {table : CellTable} {result : Result}

/-- **What the reports of a completed table tell.** -/
theorem Ready.tells (hready : Ready rules terminalCount states table)
    (hl : lookaheads.Terminal terminalCount)
    (h : complete rules states lookaheads table = .ok result) (q : StateId) (t : SymbolId) :
    Tells (reports result.conflicts q t) (result.table.cell q t) := by
  by_cases hnone : ∃ cell, Asks rules lookaheads states q t cell
  · obtain ⟨cell, hasked⟩ := hnone
    have ht := hready.lt_of_asks hl hasked
    have hq : q < states.size := by
      cases hasked with
      | accept hs | reduce hs => exact (Array.getElem?_eq_some_iff.1 hs).1
    obtain ⟨row, row', -, hrow', hwide, hi⟩ := hready.exists_row h (Array.getElem?_eq_getElem hq)
    have hlt : t < row.size := Nat.lt_of_lt_of_le ht hwide
    obtain ⟨first, last, hlast, -, hs⟩ := exists_succession_of_installAll hi
      error_not_mem_candidates (Array.getElem?_eq_getElem hlt)
    have hcell : result.table.cell q t = last := by simp [CellTable.cell, hrow', hlast]
    have hreports : reports (result.conflicts.filter (·.state == q)) q t =
        reports result.conflicts q t := by
      simp [reports, List.filter_filter, Bool.and_comm]
    rw [hreports, ← hcell] at hs
    exact (hready.settled h ht).tells (hready.shifts ht) (fun _ => eq_of_asks) hs
  · have hnil : reports result.conflicts q t = [] := by
      refine List.eq_nil_iff_forall_not_mem.2 fun c hc => hnone ?_
      obtain ⟨hmem, rfl, rfl⟩ := mem_reports.1 hc
      exact hready.exists_asks_of_mem h hmem
    rw [hnil]
    exact .of_nil _

end Completion

namespace Automaton

variable {registry : Registry} {config : Config} {source : String} {a : Automaton}

/-- **The last conflict about a cell names the action in it.**  A conflict with a shift does so too,
and any other one just if no further conflict about the cell drops what it keeps. -/
theorem tells_of_generate (hmade : registry.Made) (h : generate config registry source = .ok a)
    (q : StateId) (t : SymbolId) :
    Completion.Tells (Completion.reports a.conflicts q t) (a.table.cell q t) := by
  obtain ⟨c, lookaheads, result, hp⟩ := parts_of_generate h
  obtain ⟨hreserves, accept, ha⟩ := reserves_of_readRules hmade hp.read
  have hready := Completion.Ready.of_canonical hreserves.endOfInput_lt ha hp.canonical
  have hl := terminal_of_lookaheadsOf hreserves.endOfInput_lt ha
    (canonical_of_augmented ha hp.canonical) hp.found
  have hcell : a.table.cell q t = result.table.cell q t := by
    rw [← hp.cells]
    rfl
  rw [hcell, hp.conflicts]
  exact hready.tells hl hp.complete q t

/-- Of three reductions the last one to ask wins: the first conflict keeps what the second drops. -/
theorem tells_of_generate_three : ∃ a, Registry.standard.Made ∧
    generate {} .standard "s = a | b | c; c = NUM; b = NUM; a = NUM;" = .ok a ∧
    Completion.reports a.conflicts 5 SymbolId.endOfInput =
      [⟨5, SymbolId.endOfInput, .reduceReduce, .reduce 5, .reduce 6⟩,
        ⟨5, SymbolId.endOfInput, .reduceReduce, .reduce 4, .reduce 5⟩] ∧
    a.table.cell 5 SymbolId.endOfInput = .reduce 4 := by
  have hok : (generate {} .standard "s = a | b | c; c = NUM; b = NUM; a = NUM;").toOption.any
      (fun a => Completion.reports a.conflicts 5 SymbolId.endOfInput =
        [⟨5, SymbolId.endOfInput, .reduceReduce, .reduce 5, .reduce 6⟩,
          ⟨5, SymbolId.endOfInput, .reduceReduce, .reduce 4, .reduce 5⟩]) = true := by
    decide +kernel
  obtain ⟨a, ha, hreports⟩ := Except.exists_of_any_toOption hok
  have hreports := of_decide_eq_true hreports
  have htells := tells_of_generate .standard ha 5 SymbolId.endOfInput
  rw [hreports] at htells
  exact ⟨a, .standard, ha, hreports, htells.last rfl⟩

/-- **A conflict may keep an action that the table does not hold**: where three reductions ask for a
cell, each of an earlier rule than the one before, the first conflict keeps the second one. -/
theorem exists_displaced : ∃ a c,
    build "s = a | b | c; c = NUM; b = NUM; a = NUM;" = .ok a ∧ c ∈ a.conflicts ∧
    c.kept = .reduce 5 ∧ a.table.cell c.state c.terminal = .reduce 4 := by
  have hok : (build "s = a | b | c; c = NUM; b = NUM; a = NUM;").toOption.any (fun a =>
      ⟨5, SymbolId.endOfInput, .reduceReduce, .reduce 5, .reduce 6⟩ ∈ a.conflicts ∧
      a.table.cell 5 SymbolId.endOfInput = .reduce 4) = true := by
    decide +kernel
  obtain ⟨a, ha, hok⟩ := Except.exists_of_any_toOption hok
  obtain ⟨hmem, hcell⟩ := of_decide_eq_true hok
  exact ⟨a, _, ha, hmem, rfl, hcell⟩

end Automaton
end ShiftReduce

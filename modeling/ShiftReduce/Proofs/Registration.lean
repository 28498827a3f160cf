import Mathlib.Data.List.Forall2
import ShiftReduce.Proofs.Distinct
import ShiftReduce.Proofs.Rules

/-!
# Proofs/Registration — which names a fresh registry takes

Reading a text registers the reserved words that it quotes as terminals, and then the names that it
defines as nonterminals.  From a fresh registry this succeeds in exactly one case, `Registrable`: no
defined name is a terminal by then, and the numbers suffice for all that is new (`unregistered`).
-/

namespace ShiftReduce

namespace Numbering

variable {α : Type} [Ord α]

/-- A value that is not listed has no number, so it is free to be pushed. -/
theorem number?_eq_none_iff {n : Numbering α} {a : α} : n.number? a = none ↔ a ∉ n.toList := by
  simp only [Option.eq_none_iff_forall_ne_some, mem_toList, not_exists, ne_eq,
    number?_eq_some_iff]

variable [Std.TransOrd α] [Std.LawfulEqOrd α]

/-- A new value goes to the end of the list. -/
theorem toList_push (n : Numbering α) (a : α) (fresh : n.number? a = none) :
    (n.push a fresh).toList = n.toList ++ [a] := Array.toList_push

end Numbering

namespace Registry

/-! ## Registries without nonterminals -/

/-- A registry to start from. -/
inductive Fresh : Registry → Prop
  | standard : Fresh .standard
  | withTerminals {names : List String} {r : Registry} (h : withTerminals names = .ok r) : Fresh r

theorem Fresh.made {r : Registry} (h : Fresh r) : Made r := by
  cases h with
  | standard => exact .standard
  | withTerminals h => exact .withTerminals h

theorem length_toList (r : Registry) : r.toList.length = r.size := rfl

/-- A list that grows by some names is a registry that grows by as many. -/
theorem size_of_toList {r r' : Registry} {names : List String} (h : r'.toList = r.toList ++ names) :
    r'.size = r.size + names.length := by
  rw [← length_toList, h, List.length_append, length_toList]

/-- Registries before any text have terminals only. -/
theorem Fresh.size_eq {r : Registry} (h : Fresh r) : r.size = r.terminalCount := by
  cases h with
  | standard => decide +kernel
  | withTerminals h =>
    unfold Registry.withTerminals at h
    refine Except.foldlM_induction (p := fun r => r.size = r.terminalCount)
      (fun name _ r r' hr h => ?_) rfl h
    split at h
    · next x r'' hadd =>
      obtain rfl := Except.ok.inj h
      unfold addTerminal at hadd
      split at hadd
      · cases hadd
      · split at hadd
        · cases hadd
        · split at hadd
          · cases hadd
          · obtain ⟨-, rfl⟩ := Prod.mk.inj hadd
            simpa [size] using hr
    · cases h

/-- Without nonterminals, all names are those of terminals. -/
theorem terminals_eq {r : Registry} (h : r.size = r.terminalCount) : r.terminals = r.toList := by
  rw [terminals, ← h, ← length_toList, List.take_length]

theorem Fresh.terminals_eq {r : Registry} (h : Fresh r) : r.terminals = r.toList :=
  Registry.terminals_eq h.size_eq

/-- The names of a list that are not registered, each once. -/
def unregistered (r : Registry) (names : List String) : List String :=
  (names.filter fun name => !r.toList.contains name).eraseDups

/-- Order and repetitions aside, they are the names that the registry lacks. -/
theorem mem_unregistered {r : Registry} {names : List String} {name : String} :
    name ∈ r.unregistered names ↔ name ∈ names ∧ name ∉ r.toList := by
  simp [unregistered]

theorem unregistered_nil (r : Registry) : r.unregistered [] = [] := rfl

/-- Where no name is known, only repetitions fall away. -/
theorem unregistered_of_new {r : Registry} {names : List String}
    (h : ∀ name ∈ names, name ∉ r.toList) : r.unregistered names = names.eraseDups := by
  rw [unregistered, List.filter_eq_self.2 fun name hname => by simpa using h name hname]

/-- A known name in front asks for nothing. -/
theorem unregistered_cons_of_mem {r : Registry} {name : String} (h : name ∈ r.toList)
    (names : List String) : r.unregistered (name :: names) = r.unregistered names := by
  simp [unregistered, h]

/-- What is registered is not to be registered again. -/
theorem unregistered_cons {r r' : Registry} {name : String} (h : name ∉ r.toList)
    (hr : r'.toList = r.toList ++ [name]) (names : List String) :
    r.unregistered (name :: names) = name :: r'.unregistered names := by
  have hfilter : (names.filter fun n => !r'.toList.contains n) =
      (names.filter fun n => !r.toList.contains n).filter (!· == name) := by
    rw [List.filter_filter, hr]
    refine List.filter_congr fun n _ => ?_
    by_cases hn : n = name <;> simp [hn]
  rw [unregistered, unregistered, List.filter_cons_of_pos (by simpa using h), List.eraseDups_cons,
    hfilter]

/-- The reserved words of a list that are no symbols yet. -/
def newlyReserved (r : Registry) (lexemes : List String) : List String :=
  r.unregistered (lexemes.filter (r.reserved.contains ·))

theorem mem_newlyReserved {r : Registry} {lexemes : List String} {lexeme : String} :
    lexeme ∈ r.newlyReserved lexemes ↔
      (lexeme ∈ lexemes ∧ lexeme ∈ r.reserved) ∧ lexeme ∉ r.toList := by
  simp [newlyReserved, mem_unregistered]

theorem newlyReserved_nil (r : Registry) : r.newlyReserved [] = [] := rfl

/-- Quoting a known name, or a word that is not reserved, asks for nothing. -/
theorem newlyReserved_cons_of_old {r : Registry} {lexeme : String}
    (h : lexeme ∈ r.toList ∨ lexeme ∉ r.reserved) (lexemes : List String) :
    r.newlyReserved (lexeme :: lexemes) = r.newlyReserved lexemes := by
  by_cases hreserved : lexeme ∈ r.reserved
  · rw [newlyReserved, List.filter_cons_of_pos (by simpa using hreserved),
      unregistered_cons_of_mem (h.resolve_right (not_not.2 hreserved)), newlyReserved]
  · rw [newlyReserved, List.filter_cons_of_neg (by simpa using hreserved), newlyReserved]

/-- A new reserved word is asked for once, and is a symbol for the words behind it. -/
theorem newlyReserved_cons {r r' : Registry} {lexeme : String} (hname : lexeme ∉ r.toList)
    (hreserved : lexeme ∈ r.reserved) (hlist : r'.toList = r.toList ++ [lexeme])
    (hsame : r'.reserved = r.reserved) (lexemes : List String) :
    r.newlyReserved (lexeme :: lexemes) = lexeme :: r'.newlyReserved lexemes := by
  rw [newlyReserved, List.filter_cons_of_pos (by simpa using hreserved),
    unregistered_cons hname hlist, newlyReserved, hsame]

/-! ## Registering the words that are quoted -/

/-- A new terminal takes the next number, as long as there are no nonterminals. -/
theorem addTerminal_of_new {r : Registry} {name : String} (hr : r.size = r.terminalCount)
    (hname : name ∉ r.toList) (hlt : r.size < indexSpace) :
    ∃ r', r.addTerminal name = (.ok r.size, r') ∧ r'.toList = r.toList ++ [name] ∧
      r'.reserved = r.reserved ∧ r'.size = r'.terminalCount := by
  unfold addTerminal
  split
  · next h => cases h.symm.trans (Numbering.number?_eq_none_iff.2 hname)
  · next hfresh =>
    rw [if_neg (not_not.2 hr), if_neg (by simpa [isFull] using hlt)]
    exact ⟨_, rfl, Numbering.toList_push _ _ hfresh, rfl, by simpa [size] using hr⟩

theorem addTerminal_of_full {r : Registry} {name : String} (hr : r.size = r.terminalCount)
    (hname : name ∉ r.toList) (hle : indexSpace ≤ r.size) :
    r.addTerminal name = (.error .overflow, r) := by
  unfold addTerminal
  split
  · next h => cases h.symm.trans (Numbering.number?_eq_none_iff.2 hname)
  · rw [if_neg (not_not.2 hr), if_pos (by simpa [isFull] using hle)]

/-- A reserved word is registered as a terminal the first time that it is quoted. -/
theorem addReserved_of_new {r : Registry} {lexeme : String} (hr : r.size = r.terminalCount)
    (hname : lexeme ∉ r.toList) (hreserved : lexeme ∈ r.reserved) (hlt : r.size < indexSpace) :
    ∃ x r', r.addReserved lexeme = (.ok x, r') ∧ r'.toList = r.toList ++ [lexeme] ∧
      r'.reserved = r.reserved ∧ r'.size = r'.terminalCount := by
  have hnone : r.symbol? lexeme = none := Numbering.number?_eq_none_iff.2 hname
  obtain ⟨r', hadd, h⟩ := addTerminal_of_new hr hname hlt
  refine ⟨some r.size, r', ?_, h⟩
  rw [addReserved, hnone]
  simp only [List.contains_iff_mem.2 hreserved, if_true, hadd]

/-- It fails if there is no number for it, where the registry stays as it is. -/
theorem addReserved_of_full {r : Registry} {lexeme : String} (hr : r.size = r.terminalCount)
    (hname : lexeme ∉ r.toList) (hreserved : lexeme ∈ r.reserved) (hle : indexSpace ≤ r.size) :
    r.addReserved lexeme = (.error .overflow, r) := by
  have hnone : r.symbol? lexeme = none := Numbering.number?_eq_none_iff.2 hname
  rw [addReserved, hnone]
  simp only [List.contains_iff_mem.2 hreserved, if_true, addTerminal_of_full hr hname hle]

/-- Known names, and words that are not reserved, leave the registry as it is. -/
theorem addReserved_of_old {r : Registry} {lexeme : String}
    (h : lexeme ∈ r.toList ∨ lexeme ∉ r.reserved) : ∃ x, r.addReserved lexeme = (.ok x, r) := by
  unfold addReserved
  split
  · exact ⟨_, rfl⟩
  · next hnone =>
    have hname := Numbering.number?_eq_none_iff.1 hnone
    rw [if_neg (by simpa using h.resolve_left hname)]
    exact ⟨_, rfl⟩

/-! ## Registering the names that are defined -/

/-- The name of a symbol is among the terminals' if its number is below their count. -/
theorem mem_terminals_iff {r : Registry} {name : String} {x : SymbolId}
    (h : r.symbol? name = some x) : name ∈ r.terminals ↔ r.isTerminal x = true := by
  have hget (i : Nat) : r.terminals[i]? = if i < r.terminalCount then r.name? i else none := by
    rw [terminals, List.getElem?_take, toList, Numbering.toList, Array.getElem?_toList]
    rfl
  rw [isTerminal, decide_eq_true_iff, List.mem_iff_getElem?]
  constructor
  · rintro ⟨i, hi⟩
    rw [hget] at hi
    split at hi
    · next hlt =>
      obtain rfl : i = x := Option.some.inj ((r.names.number?_value? hi).symm.trans h)
      exact hlt
    · cases hi
  · exact fun hlt => ⟨x, by rw [hget, if_pos hlt]; exact r.names.value?_number? h⟩

theorem terminals_subset (r : Registry) : r.terminals ⊆ r.toList := List.take_subset _ _

/-- A name is registered as a nonterminal unless it is a terminal or there is no number for it. -/
theorem addNonterminal_of_terminal {r : Registry} {name : String} (h : name ∈ r.terminals) :
    r.addNonterminal name = (.error (.notNonterminal name), r) := by
  unfold addNonterminal
  split
  · next x hx => rw [if_pos ((mem_terminals_iff hx).1 h)]
  · next hnone => exact absurd (r.terminals_subset h) (Numbering.number?_eq_none_iff.1 hnone)

/-- A name that is defined again keeps its number. -/
theorem addNonterminal_of_old {r : Registry} {name : String} (hname : name ∈ r.toList)
    (h : name ∉ r.terminals) : ∃ x, r.addNonterminal name = (.ok x, r) := by
  unfold addNonterminal
  split
  · next x hx => exact ⟨x, by rw [if_neg (mt (mem_terminals_iff hx).2 h)]⟩
  · next hnone => exact absurd hname (Numbering.number?_eq_none_iff.1 hnone)

/-- A new nonterminal takes the next number, and no terminal is added. -/
theorem addNonterminal_of_new {r : Registry} {name : String} (hname : name ∉ r.toList)
    (hlt : r.size < indexSpace) :
    ∃ x r', r.addNonterminal name = (.ok x, r') ∧ r'.toList = r.toList ++ [name] ∧
      r'.terminals = r.terminals := by
  unfold addNonterminal
  split
  · next h => cases h.symm.trans (Numbering.number?_eq_none_iff.2 hname)
  · next hfresh =>
    rw [if_neg (by simpa [isFull] using hlt)]
    have hlist := Numbering.toList_push r.names name hfresh
    refine ⟨_, _, rfl, hlist, ?_⟩
    exact (congrArg (List.take r.terminalCount) hlist).trans
      (List.take_append_of_le_length r.terminalCount_le)

/-- A new nonterminal fails if all numbers are given out. -/
theorem addNonterminal_of_full {r : Registry} {name : String} (hname : name ∉ r.toList)
    (hle : indexSpace ≤ r.size) : r.addNonterminal name = (.error .overflow, r) := by
  unfold addNonterminal
  split
  · next h => cases h.symm.trans (Numbering.number?_eq_none_iff.2 hname)
  · rw [if_pos (by simpa [isFull] using hle)]

end Registry

/-! ## Runs of registrations -/

namespace Registering

variable {α β : Type}

/-- The computation does not fail. -/
def Succeeds (m : Registering α) (r : Registry) : Prop := ∃ a r', m.runOn r = (.ok a, r')

/-- A computation that succeeds hands its result and its registry on. -/
theorem runOn_bind_ok {m : Registering α} {f : α → Registering β} {r r₁ : Registry} {a : α}
    (h : m.runOn r = (.ok a, r₁)) : (m >>= f).runOn r = (f a).runOn r₁ := by
  have h : m r = (.ok a, r₁) := h
  simp only [runOn, ExceptT.run, bind, ExceptT.bind, ExceptT.mk, StateT.bind, h]
  rfl

/-- A computation that fails ends what it begins, with the registry it left. -/
theorem runOn_bind_error {m : Registering α} {f : α → Registering β} {r r₁ : Registry}
    {e : Grammar.Error} (h : m.runOn r = (.error e, r₁)) : (m >>= f).runOn r = (.error e, r₁) := by
  have h : m r = (.error e, r₁) := h
  simp only [runOn, ExceptT.run, bind, ExceptT.bind, ExceptT.mk, StateT.bind, h]
  rfl

theorem runOn_register_ok {f : Registry → Except Registry.Error α × Registry} {a : α}
    {r r' : Registry} (h : f r = (.ok a, r')) : (register f).runOn r = (.ok a, r') := by
  simp only [runOn, ExceptT.run, register, h]

theorem runOn_register_error {f : Registry → Except Registry.Error α × Registry}
    {e : Registry.Error} {r r' : Registry} (h : f r = (.error e, r')) :
    (register f).runOn r = (.error (.registry e), r') := by
  simp only [runOn, ExceptT.run, register, h]

end Registering

namespace Grammar

open Registering

/-- Registering the reserved words among the quoted ones. -/
def reserveAll (bodies : List String) : Registering PUnit :=
  bodies.forM fun body => discard (register (·.addReserved body))

/-- Registering the names that are defined. -/
def defineAll (names : List String) : Registering (List SymbolId) :=
  names.mapM fun name => register (·.addNonterminal name)

/-- Reserving goes on behind a word that could be reserved. -/
theorem reserveAll_cons_ok {body : String} {bodies : List String} {r r₁ : Registry}
    {x : Option SymbolId} (h : r.addReserved body = (.ok x, r₁)) :
    (reserveAll (body :: bodies)).runOn r = (reserveAll bodies).runOn r₁ :=
  runOn_bind_ok (runOn_bind_ok (runOn_register_ok h))

theorem reserveAll_cons_error {body : String} {bodies : List String} {r r₁ : Registry}
    {e : Registry.Error} (h : r.addReserved body = (.error e, r₁)) :
    (reserveAll (body :: bodies)).runOn r = (.error (.registry e), r₁) :=
  runOn_bind_error (runOn_bind_error (runOn_register_error h))

/-- **The reserved words among the quoted ones are registered once each, if the numbers
suffice.** -/
theorem runOn_reserveAll (bodies : List String) {r : Registry} (hr : r.size = r.terminalCount)
    (hle : r.size ≤ indexSpace) :
    if r.size + (r.newlyReserved bodies).length ≤ indexSpace then
      ∃ r', (reserveAll bodies).runOn r = (.ok ⟨⟩, r') ∧
        r'.toList = r.toList ++ r.newlyReserved bodies ∧ r'.size = r'.terminalCount
    else ∃ e r', (reserveAll bodies).runOn r = (.error e, r') := by
  induction bodies generalizing r with
  | nil =>
    rw [Registry.newlyReserved_nil, if_pos (by exact hle)]
    exact ⟨r, rfl, (List.append_nil _).symm, hr⟩
  | cons body bodies ih =>
    by_cases hold : body ∈ r.toList ∨ body ∉ r.reserved
    · obtain ⟨x, hx⟩ := Registry.addReserved_of_old hold
      rw [reserveAll_cons_ok hx, Registry.newlyReserved_cons_of_old hold]
      exact ih hr hle
    · obtain ⟨hname, hreserved⟩ : body ∉ r.toList ∧ body ∈ r.reserved := by simpa using hold
      rcases Nat.lt_or_ge r.size indexSpace with hlt | hge
      · obtain ⟨x, r', hx, hlist, hres, hr'⟩ :=
          Registry.addReserved_of_new hr hname hreserved hlt
        have hsize : r'.size = r.size + 1 := Registry.size_of_toList hlist
        rw [reserveAll_cons_ok hx, Registry.newlyReserved_cons hname hreserved hlist hres]
        have hih := ih hr' (by omega)
        simp only [hsize, hlist, List.append_assoc, List.singleton_append] at hih
        simpa only [List.length_cons, Nat.add_assoc, Nat.add_comm 1] using hih
      · have hlen : 0 < (r.newlyReserved (body :: bodies)).length :=
          List.length_pos_of_mem (Registry.mem_newlyReserved.2 ⟨⟨by simp, hreserved⟩, hname⟩)
        rw [if_neg (by omega)]
        exact ⟨_, _, reserveAll_cons_error
          (Registry.addReserved_of_full hr hname hreserved hge)⟩

/-- Defining goes on behind a name that could be defined. -/
theorem succeeds_defineAll_cons_iff {name : String} {names : List String} {r r₁ : Registry}
    {x : SymbolId} (h : r.addNonterminal name = (.ok x, r₁)) :
    (defineAll (name :: names)).Succeeds r ↔ (defineAll names).Succeeds r₁ := by
  rw [defineAll, List.mapM_cons, Succeeds, runOn_bind_ok (runOn_register_ok h)]
  constructor
  · rintro ⟨xs, r', hs⟩
    obtain ⟨ys, r₂, hs, -⟩ := runOn_bind hs
    exact ⟨ys, r₂, hs⟩
  · rintro ⟨xs, r', hs⟩
    exact ⟨x :: xs, r', runOn_bind_ok hs⟩

theorem not_succeeds_defineAll_cons {name : String} {names : List String} {r r₁ : Registry}
    {e : Registry.Error} (h : r.addNonterminal name = (.error e, r₁)) :
    ¬ (defineAll (name :: names)).Succeeds r := by
  rw [defineAll, List.mapM_cons, Succeeds, runOn_bind_error (runOn_register_error h)]
  rintro ⟨xs, r', hs⟩
  cases hs

/-- **The defined names are registered once each, if they are no terminals and the numbers
suffice.** -/
theorem succeeds_defineAll_iff {names : List String} {r : Registry} (hle : r.size ≤ indexSpace) :
    (defineAll names).Succeeds r ↔ (∀ name ∈ names, name ∉ r.terminals) ∧
      r.size + (r.unregistered names).length ≤ indexSpace := by
  induction names generalizing r with
  | nil =>
    rw [Registry.unregistered_nil]
    exact iff_of_true ⟨[], r, rfl⟩ ⟨by simp, hle⟩
  | cons name names ih =>
    rw [List.forall_mem_cons]
    by_cases hterminal : name ∈ r.terminals
    · exact iff_of_false
        (not_succeeds_defineAll_cons (Registry.addNonterminal_of_terminal hterminal))
        fun h => h.1.1 hterminal
    by_cases hold : name ∈ r.toList
    · obtain ⟨x, hx⟩ := Registry.addNonterminal_of_old hold hterminal
      rw [succeeds_defineAll_cons_iff hx, ih hle, Registry.unregistered_cons_of_mem hold]
      simp [hterminal]
    rcases Nat.lt_or_ge r.size indexSpace with hlt | hge
    · obtain ⟨x, r₁, hx, hlist, hterminals⟩ := Registry.addNonterminal_of_new hold hlt
      have hsize : r₁.size = r.size + 1 := Registry.size_of_toList hlist
      rw [succeeds_defineAll_cons_iff hx, ih (by omega), hterminals, hsize,
        Registry.unregistered_cons hold hlist, List.length_cons, Nat.add_right_comm, Nat.add_assoc]
      simp [hterminal]
    · have hlen : 0 < (r.unregistered (name :: names)).length :=
        List.length_pos_of_mem (Registry.mem_unregistered.2 ⟨by simp, hold⟩)
      exact iff_of_false
        (not_succeeds_defineAll_cons (Registry.addNonterminal_of_full hold hge))
        fun h => by omega

/-- The symbols of the defined names, in order. -/
theorem forall₂_of_defineAll {names : List String} {symbols : List SymbolId} {r r' : Registry}
    (h : (defineAll names).runOn r = (.ok symbols, r')) :
    List.Forall₂ (fun x name => r'.name? x = some name) symbols names := by
  induction names generalizing r symbols with
  | nil =>
    obtain ⟨rfl, rfl⟩ := runOn_pure h
    exact .nil
  | cons name names ih =>
    rw [defineAll, List.mapM_cons] at h
    obtain ⟨x, r₁, hx, h⟩ := runOn_bind h
    obtain ⟨xs, r₂, hxs, h⟩ := runOn_bind h
    obtain ⟨rfl, rfl⟩ := runOn_pure h
    have hname := (Registry.addNonterminal_ok (runOn_register hx)).1
    exact .cons ((of_mapM_addNonterminal hxs).1.name x name hname) (ih hxs)

/-! ## Both -/

/-- The quoted and the defined names of a text that a registry can take: none that is defined is a
terminal, or becomes one by being reserved and quoted, and there are numbers for all. -/
structure Registrable (r : Registry) (quoted defined : List String) : Prop where
  not_terminal : ∀ name ∈ defined, name ∉ r.terminals ∧ ¬ (name ∈ quoted ∧ name ∈ r.reserved)
  fits : r.size + (r.newlyReserved quoted).length + defined.eraseDups.length ≤ indexSpace

/-- Neither order nor repetitions decide whether names can be registered. -/
theorem Registrable.congr {quoted quoted' defined defined' : List String} {r : Registry}
    (h : Registrable r quoted defined) (hq : ∀ l, l ∈ quoted' ↔ l ∈ quoted)
    (hd : ∀ n, n ∈ defined' ↔ n ∈ defined) : Registrable r quoted' defined' := by
  have hnew : (r.newlyReserved quoted').length = (r.newlyReserved quoted).length :=
    Distinct.length_eraseDups_eq fun l => by simp [hq]
  refine ⟨fun name hname => ?_, ?_⟩
  · rw [hq]
    exact h.not_terminal name ((hd name).1 hname)
  · rw [hnew, Distinct.length_eraseDups_eq hd]
    exact h.fits

/-- Registering what a text quotes and defines. -/
def registerAll (quoted defined : List String) : Registering (List SymbolId) :=
  reserveAll quoted >>= fun _ => defineAll defined

/-- The symbols are those of the defined names, as the words come before them. -/
theorem forall₂_of_registerAll {quoted defined : List String} {symbols : List SymbolId}
    {r r' : Registry} (h : (registerAll quoted defined).runOn r = (.ok symbols, r')) :
    List.Forall₂ (fun x name => r'.name? x = some name) symbols defined := by
  obtain ⟨_, r₁, -, h⟩ := runOn_bind h
  exact forall₂_of_defineAll h

/-- **A fresh registry takes exactly the registrable names.** -/
theorem succeeds_registerAll_iff {quoted defined : List String} {r : Registry} (hr : r.Fresh) :
    (registerAll quoted defined).Succeeds r ↔ Registrable r quoted defined := by
  have hreserve := runOn_reserveAll quoted hr.size_eq hr.made.size_le
  split at hreserve
  · next hfits =>
    obtain ⟨r₁, hrun, hlist, hsize⟩ := hreserve
    have hcount : r₁.size = r.size + (r.newlyReserved quoted).length :=
      Registry.size_of_toList hlist
    have hmem {name : String} : name ∉ r₁.terminals ↔
        name ∉ r.terminals ∧ ¬ (name ∈ quoted ∧ name ∈ r.reserved) := by
      rw [Registry.terminals_eq hsize, hlist, hr.terminals_eq, List.mem_append,
        Registry.mem_newlyReserved]
      tauto
    rw [registerAll, Succeeds, runOn_bind_ok hrun]
    refine (succeeds_defineAll_iff (hcount ▸ hfits)).trans ?_
    constructor
    · rintro ⟨hdefined, hle⟩
      refine ⟨fun name hname => hmem.1 (hdefined name hname), ?_⟩
      rwa [hcount, Registry.unregistered_of_new (Registry.terminals_eq hsize ▸ hdefined)] at hle
    · rintro ⟨hnot, hle⟩
      have hdefined : ∀ name ∈ defined, name ∉ r₁.terminals := fun name hname =>
        hmem.2 (hnot name hname)
      refine ⟨hdefined, ?_⟩
      rwa [hcount, Registry.unregistered_of_new (Registry.terminals_eq hsize ▸ hdefined)]
  · next hfits =>
    obtain ⟨e, r₁, hrun⟩ := hreserve
    rw [registerAll, Succeeds, runOn_bind_error hrun]
    refine iff_of_false ?_ fun h => hfits (Nat.le_trans (Nat.le_add_right _ _) h.fits)
    rintro ⟨xs, r', h⟩
    cases h

end Grammar
end ShiftReduce

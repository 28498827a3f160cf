import ShiftReduce.Proofs.Registration

/-!
# Proofs/History — registries over any history of calls

A call to a registry asks for the symbol of a name, and whether the symbol is a terminal depends on
the call alone.  What one call does is said once (`Answers`): it fails and changes nothing, or finds
a symbol, or gives its name the next number.  So symbols keep their names and their classes for ever
(`Keeps`), and after any calls the terminals are the symbols that were asked for as terminals
(`consistent_after`).
-/

namespace ShiftReduce.Registry

/-! ## Calls -/

/-- What a registry is asked for: a new terminal, the terminal of a quoted lexeme, or a
nonterminal. -/
inductive Call where
  | terminal (name : String)
  | reserved (lexeme : String)
  | nonterminal (name : String)
deriving DecidableEq, Repr

/-- The name whose symbol is asked for. -/
def Call.name : Call → String
  | .terminal name | .reserved name | .nonterminal name => name

/-- Whether a terminal is asked for. -/
def Call.asksTerminal : Call → Bool
  | .terminal _ | .reserved _ => true
  | .nonterminal _ => false

/-- The answer to a call, and the registry behind it.  A lexeme that is no terminal has no symbol,
which is no error. -/
def answer (r : Registry) : Call → Except Error (Option SymbolId) × Registry
  | .terminal name => (r.addTerminal name).map (Except.map some) id
  | .reserved lexeme => r.addReserved lexeme
  | .nonterminal name => (r.addNonterminal name).map (Except.map some) id

/-- The registry behind some calls. -/
def after (r : Registry) (calls : List Call) : Registry :=
  calls.foldl (fun r call => (r.answer call).2) r

/-- In the course of some calls, `call` is answered with the symbol `x`. -/
inductive Grants : Registry → List Call → Call → SymbolId → Prop
  | head {r : Registry} {call : Call} {x : SymbolId} {calls : List Call}
      (h : (r.answer call).1 = .ok (some x)) : Grants r (call :: calls) call x
  | tail {r : Registry} {next call : Call} {x : SymbolId} {calls : List Call}
      (h : Grants (r.answer next).2 calls call x) : Grants r (next :: calls) call x

/-! ## One call -/

variable {r r' : Registry} {call : Call} {calls : List Call} {x : SymbolId}

/-- **What a call can do.** -/
inductive Answers (r : Registry) (call : Call) : Except Error (Option SymbolId) × Registry → Prop
  | failed (e : Error) : Answers r call (.error e, r)
  /-- The lexeme is no terminal. -/
  | absent : Answers r call (.ok none, r)
  | found {x : SymbolId} (hx : r.name? x = some call.name)
      (ht : r.isTerminal x = call.asksTerminal) : Answers r call (.ok (some x), r)
  /-- The name is given the next number; a terminal is before all nonterminals. -/
  | added {r' : Registry} (fresh : r.names.number? call.name = none) (hlt : r.size < indexSpace)
      (hnames : r'.names = r.names.push call.name fresh)
      (hcount : if call.asksTerminal then r.size = r.terminalCount ∧ r'.terminalCount = r'.size
        else r'.terminalCount = r.terminalCount) : Answers r call (.ok (some r.size), r')

theorem not_isFull_iff : ¬ r.isFull = true ↔ r.size < indexSpace := by
  simp [isFull]

theorem answers_terminal (r : Registry) (name : String) :
    Answers r (.terminal name) (r.answer (.terminal name)) := by
  rw [answer, addTerminal]
  split
  · exact .failed _
  · next fresh =>
    split
    · exact .failed _
    · next hcount =>
      have hcount : r.size = r.terminalCount := not_not.1 hcount
      split
      · exact .failed _
      · next hfull =>
        refine .added fresh (not_isFull_iff.1 hfull) rfl ⟨hcount, ?_⟩
        exact (congrArg (· + 1) hcount.symm).trans (Numbering.size_push _ _ fresh).symm

theorem answers_nonterminal (r : Registry) (name : String) :
    Answers r (.nonterminal name) (r.answer (.nonterminal name)) := by
  rw [answer, addNonterminal]
  split
  · next x hx =>
    cases ht : r.isTerminal x with
    | true => exact .failed _
    | false => exact .found (r.names.value?_number? hx) ht
  · next fresh =>
    split
    · exact .failed _
    · next hfull => exact .added fresh (not_isFull_iff.1 hfull) rfl rfl

theorem answers_reserved (r : Registry) (lexeme : String) :
    Answers r (.reserved lexeme) (r.answer (.reserved lexeme)) := by
  rw [answer, addReserved]
  split
  · next x hx =>
    cases ht : r.isTerminal x with
    | true => exact .found (r.names.value?_number? hx) ht
    | false => exact .absent
  · split
    · -- a reserved word is registered as any other terminal is
      have h := answers_terminal r lexeme
      rw [answer] at h
      generalize r.addTerminal lexeme = answered at h ⊢
      obtain ⟨e | x, r'⟩ := answered
      · cases h
        exact .failed _
      · cases h with
        | found hx ht => exact .found hx ht
        | added fresh hlt hnames hcount => exact .added fresh hlt hnames hcount
    · exact .absent

theorem answers (r : Registry) (call : Call) : Answers r call (r.answer call) := by
  cases call with
  | terminal name => exact answers_terminal r name
  | reserved lexeme => exact answers_reserved r lexeme
  | nonterminal name => exact answers_nonterminal r name

theorem size_of_names {name : String} {fresh : r.names.number? name = none}
    (h : r'.names = r.names.push name fresh) : r'.size = r.size + 1 := by
  rw [size, h, Numbering.size_push, size]

/-- A call that fails changes nothing. -/
theorem snd_answer_of_error {e : Error} (h : (r.answer call).1 = .error e) :
    (r.answer call).2 = r := by
  have ha := r.answers call
  generalize r.answer call = answered at h ha
  cases ha with
  | failed | absent | found => rfl
  | added => cases h

/-- A symbol that is granted has the name and the class that were asked for. -/
theorem of_answer_eq_ok (h : (r.answer call).1 = .ok (some x)) :
    (r.answer call).2.name? x = some call.name ∧
      (r.answer call).2.isTerminal x = call.asksTerminal := by
  have ha := r.answers call
  generalize r.answer call = answered at h ha
  cases ha with
  | failed | absent => cases h
  | found hx ht =>
    obtain rfl := Option.some.inj (Except.ok.inj h)
    exact ⟨hx, ht⟩
  | @added r' fresh hlt hnames hcount =>
    obtain rfl := Option.some.inj (Except.ok.inj h)
    refine ⟨?_, ?_⟩
    · rw [name?, hnames]
      exact Numbering.value?_push_size fresh
    · have hsize := size_of_names hnames
      have hle := r.terminalCount_le
      rw [isTerminal]
      split at hcount
      · next ht => simp [ht, hcount.2, hsize]
      · next ht => simpa [ht, hcount, size] using hle

/-! ## What later calls keep -/

/-- The symbols of the first registry have the same names and the same classes in the second. -/
def Keeps (r r' : Registry) : Prop :=
  ∀ x name, r.name? x = some name → r'.name? x = some name ∧ r'.isTerminal x = r.isTerminal x

theorem Keeps.refl (r : Registry) : Keeps r r := fun _ _ h => ⟨h, rfl⟩

theorem Keeps.trans {r'' : Registry} (h : Keeps r r') (h' : Keeps r' r'') : Keeps r r'' := by
  intro x name hx
  obtain ⟨hname, hclass⟩ := h x name hx
  obtain ⟨hname', hclass'⟩ := h' x name hname
  exact ⟨hname', hclass'.trans hclass⟩

/-- A new terminal is behind the terminals only, so no symbol changes its class. -/
theorem keeps_answer (r : Registry) (call : Call) : Keeps r (r.answer call).2 := by
  have ha := r.answers call
  generalize r.answer call = answered at ha
  cases ha with
  | failed | absent | found => exact .refl r
  | @added r' fresh hlt hnames hcount =>
    intro x name hx
    refine ⟨?_, ?_⟩
    · rw [name?, hnames]
      exact Numbering.value?_push_of_some fresh hx
    · have hlt := lt_size_of_name? hx
      have hsize := size_of_names hnames
      rw [isTerminal, isTerminal]
      split at hcount
      · next ht => simp only [hcount.2, hsize, ← hcount.1, hlt, Nat.lt_succ_of_lt]
      · rw [hcount]

/-- **Symbols keep their names and their classes** under all later calls. -/
theorem keeps_after (r : Registry) (calls : List Call) : Keeps r (r.after calls) := by
  induction calls generalizing r with
  | nil => exact .refl r
  | cons call calls ih => exact (r.keeps_answer call).trans (ih _)

/-- What was granted in the course of some calls has its name and its class behind them. -/
theorem Grants.kept (h : Grants r calls call x) :
    (r.after calls).name? x = some call.name ∧
      (r.after calls).isTerminal x = call.asksTerminal := by
  induction h with
  | head h =>
    obtain ⟨hname, hclass⟩ := of_answer_eq_ok h
    obtain ⟨hname', hclass'⟩ := keeps_after _ _ _ _ hname
    exact ⟨hname', hclass'.trans hclass⟩
  | tail _ ih => exact ih

/-! ## Which symbols there are -/

/-- A symbol behind a call was there before, or is what the call granted. -/
theorem lt_size_answer (h : x < (r.answer call).2.size) :
    x < r.size ∨ (r.answer call).1 = .ok (some x) := by
  have ha := r.answers call
  generalize r.answer call = answered at h ha ⊢
  cases ha with
  | failed | absent | found => exact .inl h
  | @added r' fresh hlt hnames hcount =>
    have hsize := size_of_names hnames
    rcases Nat.lt_succ_iff_lt_or_eq.1 (hsize ▸ h) with h | rfl
    · exact .inl h
    · exact .inr rfl

/-- **Every symbol was there in the beginning, or was granted.** -/
theorem lt_size_after (h : x < (r.after calls).size) :
    x < r.size ∨ ∃ call, Grants r calls call x := by
  induction calls generalizing r with
  | nil => exact .inl h
  | cons next calls ih =>
    rcases ih h with h | ⟨call, h⟩
    · exact (lt_size_answer h).imp_right fun h => ⟨next, .head h⟩
    · exact .inr ⟨call, .tail h⟩

theorem lt_size_iff : x < r.size ↔ ∃ name, r.name? x = some name := by
  constructor
  · intro h
    exact ⟨_, Array.getElem?_eq_getElem h⟩
  · rintro ⟨name, h⟩
    exact lt_size_of_name? h

/-! ## Histories -/

/-- What is known of the registry `r` that some calls have made of `start`. -/
structure Consistent (start : Registry) (calls : List Call) (r : Registry) : Prop where
  nodup : r.toList.Nodup
  /-- A symbol has a name and a name has a symbol, each of which leads back to the other. -/
  symbol?_iff {name : String} {x : SymbolId} : r.symbol? name = some x ↔ r.name? x = some name
  named_iff {x : SymbolId} : (∃ name, r.name? x = some name) ↔ x < r.size
  endOfInput : r.symbol? Terminal.endOfInput = some 0
  epsilon : r.symbol? Terminal.epsilon = some 1
  size_le : r.size ≤ 65535
  /-- The terminals, which are the symbols below their number, are those to start with and those
  that were asked for as terminals. -/
  terminal_iff {x : SymbolId} : x < r.terminalCount ↔
    x < start.size ∨ ∃ call, Grants start calls call x ∧ call.asksTerminal = true
  nonterminal_iff {x : SymbolId} : r.terminalCount ≤ x ∧ x < r.size ↔
    ∃ call, Grants start calls call x ∧ call.asksTerminal = false
  /-- A symbol that was granted is the one of the name that was asked for. -/
  granted {call : Call} {x : SymbolId} (h : Grants start calls call x) :
    r.name? x = some call.name ∧ r.isTerminal x = call.asksTerminal
  /-- Symbols keep their names and classes under all later calls. -/
  kept (later : List Call) : Keeps r (r.after later)
  failed {call : Call} {e : Error} (h : (r.answer call).1 = .error e) : (r.answer call).2 = r

theorem made_answer (h : Made r) (call : Call) : Made (r.answer call).2 := by
  cases call with
  | terminal name => exact .addTerminal h name
  | reserved lexeme => exact .addReserved h lexeme
  | nonterminal name => exact .addNonterminal h name

theorem made_after (h : Made r) (calls : List Call) : Made (r.after calls) := by
  induction calls generalizing r with
  | nil => exact h
  | cons call calls ih => exact ih (made_answer h call)

/-- **A registry is consistent after any calls**: names and symbols are one to one, the reserved
terminals have their numbers, the terminals are the first symbols, and later calls change neither
names nor classes. -/
theorem consistent_after {start : Registry} (h : Fresh start) (calls : List Call) :
    Consistent start calls (start.after calls) := by
  have hmade := made_after h.made calls
  have hreserves := hmade.reserves
  have hkept := keeps_after start calls
  -- a symbol is of the class that it was asked for as, and was a terminal to start with
  have hstart (x : SymbolId) (hx : x < start.size) : x < (start.after calls).terminalCount := by
    obtain ⟨name, hname⟩ := lt_size_iff.1 hx
    have hclass := (hkept x name hname).2
    rw [h.size_eq] at hx
    simpa [isTerminal, hx] using hclass
  have hgranted {call : Call} {x : SymbolId} (hg : Grants start calls call x) :
      x < (start.after calls).terminalCount ↔ call.asksTerminal = true := by
    rw [← hg.kept.2, isTerminal, decide_eq_true_iff]
  refine ⟨Numbering.nodup_toList _, Numbering.number?_eq_some_iff _, lt_size_iff.symm,
    (Numbering.number?_eq_some_iff _).2 hreserves.endOfInput,
    (Numbering.number?_eq_some_iff _).2 hreserves.epsilon, hmade.size_le, fun {x} => ?_,
    fun {x} => ?_, Grants.kept, keeps_after _, snd_answer_of_error⟩
  · constructor
    · intro hx
      have hlt := Nat.lt_of_lt_of_le hx (start.after calls).terminalCount_le
      rcases lt_size_after hlt with hold | ⟨call, hg⟩
      · exact .inl hold
      · exact .inr ⟨call, hg, (hgranted hg).1 hx⟩
    · rintro (hx | ⟨call, hg, hclass⟩)
      · exact hstart x hx
      · exact (hgranted hg).2 hclass
  · constructor
    · rintro ⟨hle, hlt⟩
      rcases lt_size_after hlt with hx | ⟨call, hg⟩
      · exact absurd (hstart x hx) (Nat.not_lt_of_le hle)
      · refine ⟨call, hg, ?_⟩
        rw [← Bool.not_eq_true, ← hgranted hg]
        exact Nat.not_lt_of_le hle
    · rintro ⟨call, hg, hclass⟩
      refine ⟨Nat.le_of_not_lt fun hlt => ?_, lt_size_of_name? hg.kept.1⟩
      exact absurd ((hgranted hg).1 hlt) (by simp [hclass])

/-- A reserved word is registered when it is quoted, but not behind the first nonterminal; neither
is any other terminal, and no terminal becomes a nonterminal. -/
theorem consistent_after_reserved : ∃ (calls : List Call) (r : Registry),
    calls = [.reserved "if", .terminal "if", .nonterminal "s", .reserved "else", .terminal "t",
      .nonterminal "if", .nonterminal "s"] ∧
    Fresh .standard ∧ standard.after calls = r ∧
    r.toList = standard.toList ++ ["if", "s"] ∧ r.nonterminals = ["s"] ∧
    (r.answer (.reserved "else")).1 = .error (.terminalAfterNonterminal "else") ∧
    Consistent .standard calls r :=
  ⟨_, _, rfl, .standard, rfl, by decide +kernel, by decide +kernel, by decide +kernel,
    consistent_after .standard _⟩

end ShiftReduce.Registry

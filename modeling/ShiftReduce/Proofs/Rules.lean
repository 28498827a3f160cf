import ShiftReduce.Automaton
import ShiftReduce.Proofs.Expansion
import ShiftReduce.Proofs.Names
import ShiftReduce.Proofs.Derivation

/-!
# Proofs/Rules — the rules that a grammar text yields

A text that is read without error yields *augmented* rules: rule 0 derives the start symbol from a
symbol that occurs nowhere else, every left-hand side is a nonterminal, and all symbols are
registered.  That `S'` occurs nowhere else rests on the scanner, which lets no quote into a name.
-/

namespace ShiftReduce

/-! ## Computations that register symbols -/

namespace Registering

variable {α β : Type}

theorem runOn_bind {m : Registering α} {f : α → Registering β} {r r' : Registry} {b : β}
    (h : (m >>= f).runOn r = (.ok b, r')) :
    ∃ a r₁, m.runOn r = (.ok a, r₁) ∧ (f a).runOn r₁ = (.ok b, r') := by
  simp only [runOn, ExceptT.run, bind, ExceptT.bind, ExceptT.mk, StateT.bind] at h ⊢
  rcases hm : m r with ⟨e | a, r₁⟩
  · rw [hm] at h
    have h : ((.error e, r₁) : Except Grammar.Error β × Registry) = (.ok b, r') := h
    cases h
  · simp only [hm, ExceptT.bindCont] at h
    exact ⟨a, r₁, rfl, h⟩

theorem runOn_pure {a b : α} {r r' : Registry}
    (h : (pure a : Registering α).runOn r = (.ok b, r')) : a = b ∧ r = r' := by
  have h : (Except.ok a, r) = ((.ok b, r') : Except Grammar.Error α × Registry) := h
  simpa using h

theorem runOn_register {f : Registry → Except Registry.Error α × Registry} {a : α}
    {r r' : Registry} (h : (register f).runOn r = (.ok a, r')) : f r = (.ok a, r') := by
  simp only [runOn, ExceptT.run, register] at h
  split at h
  · exact nomatch h
  · next b r₁ hf =>
    rw [hf]
    simpa using h

end Registering

namespace Grammar

open Registering

/-! ## The symbols of a grammar -/

/-- A nonterminal with a name that a text can define. -/
def Definable (r : Registry) (x : SymbolId) : Prop :=
  r.terminalCount ≤ x ∧ ∃ name, r.name? x = some name ∧ name ≠ augmentedStart

/-- A grammar whose left-hand sides, the start symbol among them, are nonterminals. -/
structure Over (r : Registry) (g : Grammar) : Prop where
  start : Definable r g.start
  lhs : ∀ rule ∈ g.rules, Definable r rule.lhs

/-- Registering the reserved words that a text quotes. -/
theorem extends_of_forM_addReserved {bodies : List String} {r r' : Registry} {u : PUnit}
    (h : (bodies.forM fun body => discard (register (·.addReserved body))).runOn r
      = (.ok u, r')) : Registry.Extends r r' := by
  induction bodies generalizing r with
  | nil =>
    obtain ⟨-, rfl⟩ := runOn_pure h
    exact .refl r
  | cons body bodies ih =>
    obtain ⟨_, r₁, h₁, h⟩ := runOn_bind h
    obtain ⟨x, r₂, h₂, h₃⟩ := runOn_bind h₁
    obtain ⟨-, rfl⟩ := runOn_pure h₃
    have he := Registry.extends_addReserved r body
    rw [runOn_register h₂] at he
    exact he.trans (ih h)

/-- Registering the names of a text's definitions. -/
theorem of_mapM_addNonterminal {names : List String} {r r' : Registry} {symbols : List SymbolId}
    (h : (names.mapM fun name => register (·.addNonterminal name)).runOn r = (.ok symbols, r')) :
    Registry.Extends r r' ∧ r'.terminalCount = r.terminalCount ∧
      ∀ x ∈ symbols, r'.terminalCount ≤ x ∧ ∃ name ∈ names, r'.name? x = some name := by
  induction names generalizing r symbols with
  | nil =>
    rw [List.mapM_nil] at h
    obtain ⟨rfl, rfl⟩ := runOn_pure h
    exact ⟨.refl r, rfl, by simp⟩
  | cons name names ih =>
    rw [List.mapM_cons] at h
    obtain ⟨x, r₁, h₁, h⟩ := runOn_bind h
    obtain ⟨xs, r₂, h₂, h⟩ := runOn_bind h
    obtain ⟨rfl, rfl⟩ := runOn_pure h
    obtain ⟨he, hc, hxs⟩ := ih h₂
    obtain ⟨hn, hc₁, hx⟩ := Registry.addNonterminal_ok (runOn_register h₁)
    have he₁ := Registry.extends_addNonterminal r name
    rw [runOn_register h₁] at he₁
    refine ⟨he₁.trans he, hc.trans hc₁, List.forall_mem_cons.2 ⟨?_, fun y hy => ?_⟩⟩
    · exact ⟨by rw [hc, hc₁]; exact hx, name, List.mem_cons_self, he.name x name hn⟩
    · obtain ⟨hy, name', hname', hv⟩ := hxs y hy
      exact ⟨hy, name', List.mem_cons_of_mem name hname', hv⟩

theorem mem_of_mem_define {rules : List Rule} {lhs : SymbolId} {d : Definition} {rule : Rule}
    (h : rule ∈ define rules lhs d) : rule.lhs = lhs ∨ ∃ rule' ∈ rules, rule'.lhs = rule.lhs := by
  unfold define at h
  split at h
  · obtain ⟨rule', h', rfl⟩ := List.mem_map.1 h
    refine .inr ⟨rule', h', ?_⟩
    split <;> rfl
  · rcases List.mem_append.1 h with h | h
    · exact .inr ⟨rule, h, rfl⟩
    · obtain rfl := List.mem_singleton.1 h
      exact .inl rfl

/-- The left-hand sides of a grammar are the symbols of its definitions. -/
theorem lhs_mem_of_mem_ofDefinitions {start : SymbolId} {ds : List (SymbolId × Definition)}
    {rule : Rule} (h : rule ∈ (ofDefinitions start ds).rules) : rule.lhs ∈ ds.map Prod.fst := by
  suffices hl : ∀ (ds : List (SymbolId × Definition)) (rules : List Rule),
      ∀ rule ∈ ds.foldl (fun rules d => define rules d.1 d.2) rules,
        rule.lhs ∈ ds.map Prod.fst ∨ ∃ rule' ∈ rules, rule'.lhs = rule.lhs by
    simpa using hl ds [] rule h
  intro ds
  induction ds with
  | nil => exact fun rules rule h => .inr ⟨rule, h, rfl⟩
  | cons d ds ih =>
    intro rules rule h
    rcases ih _ rule h with h | ⟨rule', h, he⟩
    · exact .inl (List.mem_cons_of_mem _ h)
    · rcases mem_of_mem_define h with h | h
      · exact .inl (by simp [← he, h])
      · exact .inr (by simpa only [he] using h)

/-- **A text that is read defines a grammar over the registry behind it.** -/
theorem over_of_parse {source : String} {r r' : Registry} {g : Grammar}
    (h : (parse source).runOn r = (.ok g, r')) : Registry.Extends r r' ∧ Over r' g := by
  unfold parse at h
  split at h
  · exact nomatch h
  · next ts finish hscan =>
    obtain ⟨_, r₁, h₁, h⟩ := runOn_bind h
    obtain ⟨symbols, r₂, h₂, h⟩ := runOn_bind h
    have he := (extends_of_forM_addReserved h₁).trans (of_mapM_addNonterminal h₂).1
    have hsymbols : ∀ x ∈ symbols, Definable r₂ x := fun x hx => by
      obtain ⟨hle, name, hname, hv⟩ := (of_mapM_addNonterminal h₂).2.2 x hx
      refine ⟨hle, name, hv, ?_⟩
      rintro rfl
      exact unquoted_of_mem_names hscan hname (by decide)
    split at h
    · exact nomatch h
    · exact nomatch h
    · next start rest definitions ho =>
      obtain ⟨rfl, rfl⟩ := runOn_pure h
      refine ⟨he, hsymbols start List.mem_cons_self, fun rule hrule => ?_⟩
      refine hsymbols rule.lhs ?_
      obtain ⟨⟨x, d⟩, hd, hx⟩ := List.mem_map.1 (lhs_mem_of_mem_ofDefinitions hrule)
      exact hx ▸ (List.of_mem_zip hd).1

end Grammar

/-! ## Flattened rules -/

/-- Rules of which the first derives the start symbol from a symbol that occurs nowhere else, and no
more of them than are counted in a word. -/
structure Augmented (rules : Array Rule) (accept start symbolCount terminalCount : Nat) : Prop where
  size_le : rules.size ≤ indexSpace
  start_rule : rules[RuleId.start]? = some ⟨⟨accept, [start]⟩, .forward⟩
  le_start : terminalCount ≤ start
  le_lhs {r : RuleId} {rule : Rule} (h : rules[r]? = some rule) : terminalCount ≤ rule.lhs
  lhs_lt {r : RuleId} {rule : Rule} (h : rules[r]? = some rule) : rule.lhs < symbolCount
  rhs_lt {r : RuleId} {rule : Rule} (h : rules[r]? = some rule) : ∀ x ∈ rule.rhs, x < symbolCount
  rhs_ne {r : RuleId} {rule : Rule} (h : rules[r]? = some rule) : ∀ x ∈ rule.rhs, x ≠ accept
  eq_start {r : RuleId} {rule : Rule} (h : rules[r]? = some rule) (ha : rule.lhs = accept) :
    r = RuleId.start

namespace Augmented

variable {rules : Array Rule} {accept start symbolCount terminalCount : Nat}

theorem le_accept (h : Augmented rules accept start symbolCount terminalCount) :
    terminalCount ≤ accept := h.le_lhs h.start_rule

theorem accept_lt (h : Augmented rules accept start symbolCount terminalCount) :
    accept < symbolCount := h.lhs_lt h.start_rule

theorem le_symbolCount (h : Augmented rules accept start symbolCount terminalCount) :
    terminalCount ≤ symbolCount := Nat.le_trans h.le_accept (Nat.le_of_lt h.accept_lt)

end Augmented

namespace Grammar

open Registering

/-- A symbol that a rule of a grammar may hold. -/
def Allowed (r : Registry) (x : SymbolId) : Prop := x < r.terminalCount ∨ Definable r x

theorem Definable.of_extends {r r' : Registry} (he : Registry.Extends r r')
    (hc : r'.terminalCount = r.terminalCount) {x : SymbolId} (h : Definable r x) :
    Definable r' x := by
  obtain ⟨hx, name, hn, hne⟩ := h
  exact ⟨by rw [hc]; exact hx, name, he.name x name hn, hne⟩

theorem Over.of_extends {r r' : Registry} (he : Registry.Extends r r')
    (hc : r'.terminalCount = r.terminalCount) {g : Grammar} (h : Over r g) : Over r' g :=
  ⟨h.start.of_extends he hc, fun rule hrule => (h.lhs rule hrule).of_extends he hc⟩

theorem Definable.lt_size {r : Registry} {x : SymbolId} (h : Definable r x) : x < r.size := by
  obtain ⟨-, name, hn, -⟩ := h
  exact Registry.lt_size_of_name? hn

theorem Allowed.lt_size {r : Registry} {x : SymbolId} (h : Allowed r x) : x < r.size := by
  rcases h with h | h
  · exact Nat.lt_of_lt_of_le h r.terminalCount_le
  · exact h.lt_size

/-- The symbols that an element offers are allowed. -/
theorem Element.Offers.allowed {g : Grammar} {r : Registry} (hg : Over r g) {e : Element}
    {x : SymbolId} (h : e.Offers g r x) : Allowed r x := by
  rcases h.cases with ⟨-, -, -, rule, hrule, rfl⟩ | ⟨name, -, hname⟩
  · exact .inr (hg.lhs rule hrule)
  · exact .inl (Registry.lt_of_terminal? hname)

/-- Rules behind the first one are over definable left-hand sides and allowed symbols. -/
def Flattening (r : Registry) (first : ShiftReduce.Rule) (rules : Array ShiftReduce.Rule) : Prop :=
  rules[0]? = some first ∧ ∀ n rule, rules[n]? = some rule → n = 0 ∨
    Definable r rule.lhs ∧ ∀ x ∈ rule.rhs, Allowed r x

/-- The rules of a grammar behind the augmented start rule. -/
theorem flattening_of_rulesOver {g : Grammar} {r : Registry} (hg : Over r g) {limits : Limits}
    {accept : SymbolId} {rules : Array ShiftReduce.Rule}
    (h : g.rulesOver r limits accept = .ok rules) :
    Flattening r ⟨⟨accept, [g.start]⟩, .forward⟩ rules := by
  have hexpanded := expanded_of_rulesOver h
  refine ⟨hexpanded.first, fun n rule hn => ?_⟩
  by_cases hstart : n = RuleId.start
  · exact .inl hstart
  · obtain ⟨a, hstems⟩ := hexpanded.stems hn hstart
    obtain ⟨rule', hrule', hlhs, -⟩ := hstems.alternative
    refine .inr ⟨hlhs ▸ hg.lhs rule' hrule', fun x hx => ?_⟩
    obtain ⟨e, -, hoffers⟩ := hstems.exists_offers hx
    exact hoffers.allowed hg

/-- Flattening registers `S'` and nothing else. -/
theorem rulesOver_of_flatten {g : Grammar} {limits : Limits} {r r' : Registry}
    {rules : Array ShiftReduce.Rule} (h : (g.flatten limits).runOn r = (.ok rules, r')) :
    ∃ accept, r.addNonterminal augmentedStart = (.ok accept, r') ∧
      g.rulesOver r' limits accept = .ok rules := by
  obtain ⟨accept, r₁, ha, h⟩ := runOn_bind h
  obtain ⟨symbols, r₂, hget, h⟩ := runOn_bind h
  have hget : (Except.ok r₁, r₁) = ((.ok symbols, r₂) : Except Error Registry × Registry) := hget
  obtain ⟨hs, rfl⟩ := Prod.mk.inj hget
  obtain rfl := Except.ok.inj hs
  split at h
  · next rules' hrules =>
    obtain ⟨rfl, rfl⟩ := runOn_pure h
    exact ⟨accept, runOn_register ha, hrules⟩
  · exact nomatch h

end Grammar

/-- The grammar and the rules of a text. -/
theorem Automaton.exists_of_readRules {limits : Limits} {source : String}
    {registry symbols : Registry} {g : Grammar} {rules : Array Rule}
    (h : (readRules limits source).runOn registry = (.ok (g, rules), symbols)) :
    ∃ r accept, (Grammar.parse source).runOn registry = (.ok g, r) ∧
      r.addNonterminal Grammar.augmentedStart = (.ok accept, symbols) ∧
      g.rulesOver symbols limits accept = .ok rules := by
  obtain ⟨g', r, hp, h⟩ := Registering.runOn_bind h
  obtain ⟨rules', r', hf, h⟩ := Registering.runOn_bind h
  obtain ⟨heq, rfl⟩ := Registering.runOn_pure h
  obtain ⟨rfl, rfl⟩ := Prod.mk.inj heq
  obtain ⟨accept, ha, hrules⟩ := Grammar.rulesOver_of_flatten hf
  exact ⟨r, accept, hp, ha, hrules⟩

/-- **The rules that a text yields are augmented**, over the registry behind it. -/
theorem Automaton.augmented_of_readRules {limits : Limits} {source : String} {r r' : Registry}
    {g : Grammar} {rules : Array Rule}
    (h : (readRules limits source).runOn r = (.ok (g, rules), r')) :
    Registry.Extends r r' ∧
      ∃ accept, Augmented rules accept g.start r'.size r'.terminalCount := by
  obtain ⟨r₁, accept, hp, ha, hrules⟩ := exists_of_readRules h
  obtain ⟨he₁, hover⟩ := Grammar.over_of_parse hp
  have he₂ := Registry.extends_addNonterminal r₁ Grammar.augmentedStart
  rw [ha] at he₂
  obtain ⟨hname, hcount, hle⟩ := Registry.addNonterminal_ok ha
  have hover : Grammar.Over r' g := hover.of_extends he₂ hcount
  obtain ⟨hfirst, hrest⟩ := Grammar.flattening_of_rulesOver hover hrules
  have hne : ∀ {x}, Grammar.Definable r' x → x ≠ accept := by
    rintro x ⟨-, name, hn, hne⟩ rfl
    exact hne (Option.some.inj (hn.symm.trans hname))
  have hallowed : ∀ {x}, Grammar.Allowed r' x → x ≠ accept := by
    rintro x (hx | hx)
    · exact Nat.ne_of_lt (Nat.lt_of_lt_of_le hx (hcount ▸ hle))
    · exact hne hx
  have hrhs : ∀ (n : RuleId) (rule : Rule), rules[n]? = some rule →
      ∀ x ∈ rule.rhs, Grammar.Allowed r' x := by
    intro n rule hn
    rcases hrest n rule hn with rfl | h
    · obtain rfl := Option.some.inj (hfirst.symm.trans hn)
      intro x hx
      obtain rfl := List.mem_singleton.1 hx
      exact .inr hover.start
    · exact h.2
  have hlhs : ∀ (n : RuleId) (rule : Rule), rules[n]? = some rule →
      (n = 0 ∧ rule.lhs = accept) ∨ Grammar.Definable r' rule.lhs := by
    intro n rule hn
    rcases hrest n rule hn with rfl | h
    · obtain rfl := Option.some.inj (hfirst.symm.trans hn)
      exact .inl ⟨rfl, rfl⟩
    · exact .inr h.1
  refine ⟨he₁.trans he₂, accept, (Grammar.foldlM_of_rulesOver hrules).2, hfirst, hover.start.1,
    fun {n rule} hn => ?_, fun {n rule} hn => ?_,
    fun {n rule} hn x hx => (hrhs n rule hn x hx).lt_size,
    fun {n rule} hn x hx => hallowed (hrhs n rule hn x hx), fun {n rule} hn ha => ?_⟩
  · rcases hlhs n rule hn with ⟨-, h⟩ | h
    · rw [h, hcount]
      exact hle
    · exact h.1
  · rcases hlhs n rule hn with ⟨-, h⟩ | h
    · rw [h]
      exact Registry.lt_size_of_name? hname
    · exact h.lt_size
  · rcases hlhs n rule hn with ⟨rfl, -⟩ | h
    · rfl
    · exact absurd ha (hne h)

end ShiftReduce

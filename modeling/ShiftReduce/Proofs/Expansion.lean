import Mathlib.Data.List.Forall2
import ShiftReduce.Production
import ShiftReduce.Proofs.Registry

/-!
# Proofs/Expansion — the alternatives that rules come from

Every rule but the first stems from an alternative of the grammar (`Grammar.Stems`): it has the
left-hand side and the action of that alternative, and for each of its elements one symbol that the
element offers.  What is known of elements is known of right-hand sides by this.
-/

namespace ShiftReduce

namespace Grammar

variable {g : Grammar} {symbols : Registry} {limits : Limits}

/-! ## Elements -/

/-- The names of the terminals that an element matches. -/
def Element.terminals (e : Element) : List String :=
  match e.kind with
  | .reference _ => []
  | .tokenClass name => [name]
  | .literal lexeme => [lexeme]
  | .charClass _ members => members

/-- The symbol is one of those that the element matches. -/
def Element.Offers (g : Grammar) (symbols : Registry) (e : Element) (x : SymbolId) : Prop :=
  ∃ xs, e.symbols? g symbols = .ok xs ∧ x ∈ xs

theorem terminal?_of_terminalOf {location : Location} {name : String} {x : SymbolId}
    (h : terminalOf symbols location name = .ok x) : symbols.terminal? name = some x := by
  unfold terminalOf at h
  split at h
  · next y hy =>
    obtain rfl := Except.ok.inj h
    exact hy
  · cases h

/-- An element offers the left-hand side of a rule that it refers to, or terminals of its names. -/
theorem Element.Offers.cases {e : Element} {x : SymbolId} (h : e.Offers g symbols x) :
    (∃ name, e.kind = .reference name ∧ symbols.symbol? name = some x ∧
        ∃ rule ∈ g.rules, rule.lhs = x) ∨
      ∃ name ∈ e.terminals, symbols.terminal? name = some x := by
  have one {location : Location} {name : String} {xs : List SymbolId}
      (h : (terminalOf symbols location name).map ([·]) = .ok xs) (hx : x ∈ xs) :
      symbols.terminal? name = some x := by
    obtain ⟨y, hy, rfl⟩ := Except.exists_of_map_eq_ok h
    obtain rfl := List.mem_singleton.1 hx
    exact terminal?_of_terminalOf hy
  obtain ⟨xs, hxs, hx⟩ := h
  obtain ⟨kind, location⟩ := e
  cases kind with
  | reference name =>
    simp only [symbols?] at hxs
    split at hxs
    · next y hy =>
      obtain rfl := Except.ok.inj hxs
      obtain rfl := List.mem_singleton.1 hx
      obtain ⟨hname, hrule⟩ := Option.filter_eq_some_iff.1 hy
      obtain ⟨rule, hrule⟩ := Option.isSome_iff_exists.1 hrule
      exact .inl ⟨name, rfl, hname, rule, List.mem_of_find?_eq_some hrule,
        by simpa using List.find?_some hrule⟩
    · cases hxs
  | tokenClass name => exact .inr ⟨name, List.mem_singleton_self name, one hxs hx⟩
  | literal lexeme => exact .inr ⟨lexeme, List.mem_singleton_self lexeme, one hxs hx⟩
  | charClass body members =>
    obtain ⟨name, hname, hx⟩ := Except.exists_of_mem_mapM hxs x hx
    exact .inr ⟨name, hname, terminal?_of_terminalOf hx⟩

/-! ## Rules -/

/-- The rule is a form of the alternative: it has one symbol for each element. -/
structure Stems (g : Grammar) (symbols : Registry) (a : Alternative) (rule : ShiftReduce.Rule) :
    Prop where
  alternative : ∃ r ∈ g.rules, r.lhs = rule.lhs ∧ a ∈ r.alternatives
  action : a.action? = .ok rule.action
  elements : List.Forall₂ (Element.Offers g symbols) a.elements rule.rhs

/-- Every symbol of the right-hand side is offered by an element. -/
theorem Stems.exists_offers {a : Alternative} {rule : ShiftReduce.Rule}
    (h : g.Stems symbols a rule) {x : SymbolId} (hx : x ∈ rule.rhs) :
    ∃ e ∈ a.elements, e.Offers g symbols x := by
  obtain ⟨-, -, helements⟩ := h
  generalize a.elements = es, rule.rhs = xs at helements hx
  induction helements with
  | nil => cases hx
  | cons hoffers _ ih =>
    rcases List.mem_cons.1 hx with rfl | hx
    · exact ⟨_, List.mem_cons_self, hoffers⟩
    · obtain ⟨e, he, hoffers⟩ := ih hx
      exact ⟨e, List.mem_cons_of_mem _ he, hoffers⟩

/-- A choice takes one symbol that each element offers. -/
theorem forall₂_offers {es : List Element} {matched : List (List SymbolId)}
    (hm : es.mapM (Element.symbols? g symbols) = .ok matched) {rhs : List SymbolId}
    (h : rhs ∈ choices matched) : List.Forall₂ (Element.Offers g symbols) es rhs := by
  induction es generalizing matched rhs with
  | nil =>
    obtain rfl : [] = matched := Except.ok.inj hm
    obtain rfl := List.mem_singleton.1 h
    exact .nil
  | cons e es ih =>
    rw [List.mapM_cons] at hm
    obtain ⟨xs, he, hm⟩ := Except.bind_eq_ok hm
    obtain ⟨rest, hes, hm⟩ := Except.bind_eq_ok hm
    obtain rfl := Except.ok.inj hm
    obtain ⟨x, hx, h⟩ := List.mem_flatMap.1 h
    obtain ⟨ys, hys, rfl⟩ := List.mem_map.1 h
    exact .cons ⟨xs, he, hx⟩ (ih hes hys)

/-- An alternative adds rules that stem from it. -/
theorem exists_append_of_addAlternative {r : Rule} (hr : r ∈ g.rules) {a : Alternative}
    (ha : a ∈ r.alternatives) {rules rules' : Array ShiftReduce.Rule}
    (h : addAlternative g symbols limits r.lhs rules a = .ok rules') :
    ∃ new, rules' = rules ++ new ∧ ∀ rule ∈ new, g.Stems symbols a rule := by
  obtain ⟨action, haction, h⟩ := Except.bind_eq_ok h
  obtain ⟨matched, hm, h⟩ := Except.bind_eq_ok h
  dsimp only at h
  split at h
  · cases h
  · split at h
    · cases h
    · obtain rfl := Except.ok.inj h
      refine ⟨_, rfl, fun rule hrule => ?_⟩
      obtain ⟨rhs, hrhs, rfl⟩ := List.mem_map.1 (List.mem_toArray.1 hrule)
      exact ⟨⟨r, hr, rfl, ha⟩, haction, forall₂_offers hm hrhs⟩

/-- The first rule is the augmented start rule, and those behind it stem from alternatives of the
grammar. -/
structure Expanded (g : Grammar) (symbols : Registry) (accept : SymbolId)
    (rules : Array ShiftReduce.Rule) : Prop where
  first : rules[RuleId.start]? = some ⟨⟨accept, [g.start]⟩, .forward⟩
  stems {n : RuleId} {rule : ShiftReduce.Rule} (hn : rules[n]? = some rule)
    (hne : n ≠ RuleId.start) : ∃ a, g.Stems symbols a rule

theorem Expanded.append {accept : SymbolId} {rules new : Array ShiftReduce.Rule}
    (h : Expanded g symbols accept rules) {a : Alternative}
    (hnew : ∀ rule ∈ new, g.Stems symbols a rule) : Expanded g symbols accept (rules ++ new) := by
  have hpos : RuleId.start < rules.size := (Array.getElem?_eq_some_iff.1 h.first).1
  refine ⟨(Array.getElem?_append_left hpos).trans h.first, fun {n rule} hn hne => ?_⟩
  rw [Array.getElem?_append] at hn
  split at hn
  · exact h.stems hn hne
  · exact ⟨a, hnew rule (Array.mem_of_getElem? hn)⟩

/-- The rules are added alternative by alternative, and then they are counted. -/
theorem foldlM_of_rulesOver {accept : SymbolId} {rules : Array ShiftReduce.Rule}
    (h : g.rulesOver symbols limits accept = .ok rules) :
    g.rules.foldlM (fun rules rule =>
      rule.alternatives.foldlM (addAlternative g symbols limits rule.lhs) rules)
      #[⟨⟨accept, [g.start]⟩, .forward⟩] = .ok rules ∧ rules.size ≤ indexSpace := by
  obtain ⟨rules', hf, h⟩ := Except.bind_eq_ok h
  split at h
  · cases h
  · next hle =>
    obtain rfl := Except.ok.inj h
    exact ⟨hf, Nat.le_of_not_lt hle⟩

/-- **Every rule but the first stems from an alternative of the grammar.** -/
theorem expanded_of_rulesOver {accept : SymbolId} {rules : Array ShiftReduce.Rule}
    (h : g.rulesOver symbols limits accept = .ok rules) : Expanded g symbols accept rules := by
  obtain ⟨hf, -⟩ := foldlM_of_rulesOver h
  have hfirst : Expanded g symbols accept #[⟨⟨accept, [g.start]⟩, .forward⟩] :=
    ⟨rfl, fun {n rule} hn hne => by
      have hlt : n < 1 := (Array.getElem?_eq_some_iff.1 hn).1
      exact absurd (Nat.lt_one_iff.1 hlt) hne⟩
  refine Except.foldlM_induction (fun r hr rules rules' hexpanded hf => ?_) hfirst hf
  refine Except.foldlM_induction (fun a ha rules rules' hexpanded h => ?_) hexpanded hf
  obtain ⟨new, rfl, hnew⟩ := exists_append_of_addAlternative hr ha h
  exact hexpanded.append hnew

end Grammar
end ShiftReduce

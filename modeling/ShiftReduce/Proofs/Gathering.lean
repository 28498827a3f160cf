import ShiftReduce.Proofs.Reading
import ShiftReduce.Proofs.Registration

/-!
# Proofs/Gathering — the grammar that a text defines

The definitions of a text are gathered by their names: a grammar has one rule for each name, in the
order in which the names are first defined, and a rule has the alternatives of all definitions of
its name (`Gathers`).  Symbols stand for names one to one, so that it does not matter that rules
are looked up by symbol.  `parse_exact` says which texts are read, and what they define.
-/

namespace ShiftReduce.Grammar

open Registering

/-! ## Rules -/

/-- All alternatives that definitions give a name. -/
def alternativesOf (ds : List Definition) (name : String) : List Alternative :=
  (ds.filter (·.name == name)).flatMap (·.alternatives)

theorem alternativesOf_concat (ds : List Definition) (d : Definition) (name : String) :
    alternativesOf (ds ++ [d]) name =
      alternativesOf ds name ++ if d.name = name then d.alternatives else [] := by
  by_cases h : d.name = name <;> simp [alternativesOf, h]

/-- The rules that definitions make, their symbols being those of a registry. -/
structure Collects (r : Registry) (ds : List Definition) (rules : List Rule) : Prop where
  names : rules.map (·.name) = (ds.map (·.name)).eraseDups
  lhs : ∀ rule ∈ rules, r.name? rule.lhs = some rule.name
  alternatives : ∀ rule ∈ rules,
    rule.alternatives = alternativesOf ds rule.name
  location : ∀ rule ∈ rules,
    (ds.find? (·.name == rule.name)).map (·.location) = some rule.location

theorem collects_nil (r : Registry) : Collects r [] [] := ⟨rfl, by simp, by simp, by simp⟩

variable {r : Registry} {ds : List Definition} {rules : List Rule} {x : SymbolId} {d : Definition}

theorem Collects.lhs_eq_iff (h : Collects r ds rules) {rule : Rule} (hrule : rule ∈ rules)
    {name : String} (hx : r.name? x = some name) : rule.lhs = x ↔ rule.name = name := by
  constructor
  · rintro rfl
    exact Option.some.inj ((h.lhs rule hrule).symm.trans hx)
  · intro hname
    exact Numbering.eq_of_value?_eq (hname ▸ h.lhs rule hrule) hx

theorem Collects.mem_names_iff (h : Collects r ds rules) {name : String} :
    name ∈ ds.map (·.name) ↔ ∃ rule ∈ rules, rule.name = name := by
  rw [← List.mem_eraseDups, ← h.names, List.mem_map]

/-- A further definition of a name goes to the rule of the name. -/
theorem Collects.define_old (h : Collects r ds rules) (hx : r.name? x = some d.name)
    (hold : d.name ∈ ds.map (·.name)) : Collects r (ds ++ [d]) (define rules x d) := by
  obtain ⟨rule₀, hrule₀, hname₀⟩ := h.mem_names_iff.1 hold
  have hany : rules.any (·.lhs == x) = true :=
    List.any_eq_true.2 ⟨rule₀, hrule₀, by simpa using (h.lhs_eq_iff hrule₀ hx).2 hname₀⟩
  rw [define, if_pos hany]
  have hname (rule : Rule) (hrule : rule ∈ rules) :
      rule.lhs = x ↔ d.name = rule.name := (h.lhs_eq_iff hrule hx).trans eq_comm
  constructor
  · rw [List.map_append, List.map_singleton, Distinct.eraseDups_concat, if_pos hold, ← h.names,
      List.map_map]
    refine List.map_congr_left fun rule _ => ?_
    rw [Function.comp]
    split <;> rfl
  all_goals
    rw [List.forall_mem_map]
    intro rule hrule
  · have hlhs := h.lhs rule hrule
    split <;> exact hlhs
  · rw [alternativesOf_concat]
    split
    · next heq => rw [if_pos ((hname rule hrule).1 heq), ← h.alternatives rule hrule]
    · next hne =>
      rw [if_neg (mt (hname rule hrule).2 hne), List.append_nil, h.alternatives rule hrule]
  · have hfound := h.location rule hrule
    obtain ⟨d', hd', hplace⟩ := Option.map_eq_some_iff.1 hfound
    split <;> simp [List.find?_append, hd', hplace]

/-- A first definition of a name makes a rule. -/
theorem Collects.define_new (h : Collects r ds rules) (hx : r.name? x = some d.name)
    (hnew : d.name ∉ ds.map (·.name)) : Collects r (ds ++ [d]) (define rules x d) := by
  have hname {rule : Rule} (hrule : rule ∈ rules) : d.name ≠ rule.name := fun heq =>
    hnew (h.mem_names_iff.2 ⟨rule, hrule, heq.symm⟩)
  have hany : ¬ rules.any (·.lhs == x) = true := fun hany => by
    obtain ⟨rule, hrule, hlhs⟩ := List.any_eq_true.1 hany
    exact hname hrule ((h.lhs_eq_iff hrule hx).1 (by simpa using hlhs)).symm
  have hdefs : ∀ d' ∈ ds, d'.name ≠ d.name := fun d' hd' heq =>
    hnew (List.mem_map.2 ⟨d', hd', heq⟩)
  rw [define, if_neg hany]
  constructor
  · rw [List.map_append, List.map_append, List.map_singleton, List.map_singleton,
      Distinct.eraseDups_concat, if_neg hnew, h.names]
  all_goals
    rw [List.forall_mem_append, List.forall_mem_singleton]
  · exact ⟨h.lhs, hx⟩
  · refine ⟨fun rule hrule => ?_, ?_⟩
    · rw [alternativesOf_concat, if_neg (hname hrule), List.append_nil, h.alternatives rule hrule]
    · rw [alternativesOf_concat, if_pos rfl, alternativesOf,
        List.filter_eq_nil_iff.2 fun d' hd' => by simpa using hdefs d' hd']
      rfl
  · refine ⟨fun rule hrule => ?_, ?_⟩
    · obtain ⟨d', hd', hplace⟩ := Option.map_eq_some_iff.1 (h.location rule hrule)
      simp [List.find?_append, hd', hplace]
    · have hnone : ds.find? (·.name == d.name) = none :=
        List.find?_eq_none.2 fun d' hd' => by simpa using hdefs d' hd'
      simp [List.find?_append, hnone]

theorem Collects.define (h : Collects r ds rules) (hx : r.name? x = some d.name) :
    Collects r (ds ++ [d]) (define rules x d) := by
  by_cases hd : d.name ∈ ds.map (·.name)
  · exact h.define_old hx hd
  · exact h.define_new hx hd

/-- What one definition keeps, all of them keep. -/
theorem Collects.foldl (h : Collects r ds rules) {symbols : List SymbolId}
    {ds' : List Definition}
    (hs : List.Forall₂ (fun x (d : Definition) => r.name? x = some d.name) symbols ds') :
    Collects r (ds ++ ds')
      ((symbols.zip ds').foldl (fun rules d => Grammar.define rules d.1 d.2) rules) := by
  induction hs generalizing ds rules with
  | nil => simpa using h
  | cons hx hs ih => simpa using ih (h.define hx)

/-! ## Grammars -/

/-- The grammar that definitions make: their rules, the first of which is that of the start symbol,
and all lexemes that they match, each once. -/
structure Gathers (r : Registry) (ds : List Definition) (g : Grammar) : Prop where
  rules : Collects r ds g.rules
  start : g.rules.head?.map (·.lhs) = some g.start
  keywords : g.keywords = (ds.flatMap Definition.lexemes).eraseDups

/-- The first rule keeps its place. -/
theorem head?_define {y : SymbolId} (h : rules.head?.map (·.lhs) = some y) :
    (define rules x d).head?.map (·.lhs) = some y := by
  cases rules with
  | nil => cases h
  | cons rule rules =>
    unfold define
    split
    · rw [← h, List.map_cons, List.head?_cons, List.head?_cons]
      split <;> rfl
    · exact h

theorem head?_foldl_define {y : SymbolId} (h : rules.head?.map (·.lhs) = some y)
    (ds : List (SymbolId × Definition)) :
    (ds.foldl (fun rules d => define rules d.1 d.2) rules).head?.map (·.lhs) = some y := by
  induction ds generalizing rules with
  | nil => exact h
  | cons d ds ih => exact ih (head?_define h)

/-- **The grammar that a text defines has the definitions of the text, gathered by their names.** -/
theorem gathers_ofDefinitions {start : SymbolId} {symbols : List SymbolId}
    (hs : List.Forall₂ (fun x (d : Definition) => r.name? x = some d.name) (start :: symbols) ds) :
    Gathers r ds (ofDefinitions start ((start :: symbols).zip ds)) := by
  refine ⟨(collects_nil r).foldl hs, ?_, ?_⟩
  · cases hs with
    | @cons _ d _ ds hx hs =>
      have hfirst : (define [] start d).head?.map (·.lhs) = some start := rfl
      exact head?_foldl_define hfirst _
  · have hzip : ((start :: symbols).zip ds).map Prod.snd = ds :=
      List.map_snd_zip hs.length_eq.ge
    have hflat := List.flatMap_map Prod.snd Definition.lexemes ((start :: symbols).zip ds)
    rw [hzip] at hflat
    exact congrArg List.eraseDups hflat.symm

/-! ## Texts -/

/-- A text is read as a grammar in one case: it scans, its lexemes spell definitions, and the
registry takes what they quote and define. -/
theorem parse_eq_ok_iff {source : String} {r r' : Registry} {g : Grammar} :
    (parse source).runOn r = (.ok g, r') ↔
      ∃ ts finish ds start symbols, scan source = .ok (ts, finish) ∧
        Phrase.Definitions finish ts ds ∧
        (registerAll (quotedBodies ts) (ds.map (·.name))).runOn r = (.ok (start :: symbols), r') ∧
        ofDefinitions start ((start :: symbols).zip ds) = g := by
  constructor
  · intro h
    unfold parse at h
    split at h
    · cases h
    · next ts finish hscan =>
      obtain ⟨_, r₁, h₁, h⟩ := runOn_bind h
      obtain ⟨symbols, r₂, h₂, h⟩ := runOn_bind h
      split at h
      · cases h
      · cases h
      · next start symbols ds ho =>
        obtain ⟨rfl, rfl⟩ := runOn_pure h
        obtain ⟨hds, hnames⟩ := definitions_of_readDefinitions ho
        refine ⟨ts, finish, ds, start, symbols, hscan, hds, ?_, rfl⟩
        exact (runOn_bind_ok h₁).trans (hnames ▸ h₂)
  · rintro ⟨ts, finish, ds, start, symbols, hscan, hds, hregister, rfl⟩
    obtain ⟨_, r₁, h₁, h₂⟩ := runOn_bind hregister
    unfold parse
    simp only [hscan, readDefinitions_of_definitions hds]
    exact (runOn_bind_ok h₁).trans (runOn_bind_ok h₂)

/-- What a text that is read spells and registers, and what its grammar gathers. -/
theorem exists_of_parse {source : String} {r' : Registry} {g : Grammar} (hr : r.Fresh)
    (h : (parse source).runOn r = (.ok g, r')) : ∃ ts finish ds, scan source = .ok (ts, finish) ∧
      Phrase.Source finish ts ds ∧ Registrable r (quotedBodies ts) (ds.map (·.name)) ∧
      Gathers r' ds g := by
  obtain ⟨ts, finish, ds, start, symbols, hscan, hds, hregister, rfl⟩ := parse_eq_ok_iff.1 h
  have hs := forall₂_of_registerAll hregister
  refine ⟨ts, finish, ds, hscan, ⟨hds, ?_⟩, (succeeds_registerAll_iff hr).1 ⟨_, _, hregister⟩,
    gathers_ofDefinitions (by simpa only [List.forall₂_map_right_iff] using hs)⟩
  rintro rfl
  cases hs

/-- A text that spells definitions is read if the registry takes the names. -/
theorem succeeds_parse {source : String} (hr : r.Fresh) {ts : Lexemes} {finish : Location}
    (hscan : scan source = .ok (ts, finish)) (hds : Phrase.Source finish ts ds)
    (hregistrable : Registrable r (quotedBodies ts) (ds.map (·.name))) :
    (parse source).Succeeds r := by
  obtain ⟨symbols, r', hregister⟩ := (succeeds_registerAll_iff hr).2 hregistrable
  have hs := forall₂_of_registerAll hregister
  cases symbols with
  | nil =>
    rw [List.forall₂_nil_left_iff, List.map_eq_nil_iff] at hs
    exact absurd hs hds.ne_nil
  | cons start symbols =>
    exact ⟨_, r', parse_eq_ok_iff.2
      ⟨ts, finish, ds, start, symbols, hscan, hds.definitions, hregister, rfl⟩⟩

/-- **The texts that are grammars, and what they define.**  With a fresh registry a text is read in
exactly one case: it scans, its lexemes spell at least one definition in the notation, and the
registry takes the names.  There is then one list of definitions that they spell, and the grammar
gathers these. -/
theorem parse_exact (hr : r.Fresh) (source : String) :
    ((parse source).Succeeds r ↔ ∃ ts finish ds, scan source = .ok (ts, finish) ∧
      Phrase.Source finish ts ds ∧ Registrable r (quotedBodies ts) (ds.map (·.name))) ∧
    ∀ g r', (parse source).runOn r = (.ok g, r') → ∃ ts finish ds,
      scan source = .ok (ts, finish) ∧ Phrase.Source finish ts ds ∧
        (∀ ds', Phrase.Source finish ts ds' → ds' = ds) ∧ Gathers r' ds g := by
  refine ⟨⟨?_, ?_⟩, fun g r' h => ?_⟩
  · rintro ⟨g, r', h⟩
    obtain ⟨ts, finish, ds, hscan, hds, hregistrable, -⟩ := exists_of_parse hr h
    exact ⟨ts, finish, ds, hscan, hds, hregistrable⟩
  · rintro ⟨ts, finish, ds, hscan, hds, hregistrable⟩
    exact succeeds_parse hr hscan hds hregistrable
  · obtain ⟨ts, finish, ds, hscan, hds, -, hgathers⟩ := exists_of_parse hr h
    exact ⟨ts, finish, ds, hscan, hds,
      fun ds' hds' => hds'.definitions.unique hds.definitions, hgathers⟩

/-- Definitions with and without semicolons behind them, empty alternatives of three kinds, and a
name defined twice, in a text that quotes a reserved word. -/
theorem parse_exact_optional : ∃ (source : String) (g : Grammar) (r' : Registry) (ts : Lexemes)
    (finish : Location) (ds : List Definition),
    source = "a = 'if' b | EPSILON EPSILON\nb = | [x-z-] {} c = {1} ;; # a = b\n a = c NUM" ∧
    Registry.standard.Fresh ∧ (parse source).runOn .standard = (.ok g, r') ∧
    g.rules.map (fun rule => (rule.name, rule.alternatives.length)) =
      [("a", 3), ("b", 2), ("c", 1)] ∧
    g.keywords = ["if", "x", "y", "z", "-"] ∧ scan source = .ok (ts, finish) ∧
    Phrase.Source finish ts ds ∧ (∀ ds', Phrase.Source finish ts ds' → ds' = ds) ∧
    Gathers r' ds g ∧ (parse source).Succeeds .standard := by
  let source := "a = 'if' b | EPSILON EPSILON\nb = | [x-z-] {} c = {1} ;; # a = b\n a = c NUM"
  have hok : (match (parse source).runOn .standard with
      | (.ok g, _) => decide (g.rules.map (fun rule => (rule.name, rule.alternatives.length)) =
            [("a", 3), ("b", 2), ("c", 1)] ∧ g.keywords = ["if", "x", "y", "z", "-"])
      | _ => false) = true := by decide +kernel
  split at hok
  · next g r' h =>
    obtain ⟨-, hparse⟩ := parse_exact .standard source
    obtain ⟨ts, finish, ds, hscan, hds, hunique, hgathers⟩ := hparse g r' h
    obtain ⟨hrules, hkeywords⟩ := of_decide_eq_true hok
    exact ⟨source, g, r', ts, finish, ds, rfl, .standard, h, hrules, hkeywords, hscan, hds,
      hunique, hgathers, g, r', h⟩
  · exact nomatch hok

end ShiftReduce.Grammar

import ShiftReduce.Automaton.TableModule
import ShiftReduce.Proofs.Automaton
import ShiftReduce.Proofs.Decoding
import ShiftReduce.Proofs.Expansion
import ShiftReduce.Proofs.Printing

/-!
# Proofs/TableModule — a generated module determines its tables

The entries of a module can be told apart whatever stands behind them: names and kernels are quoted,
numbers are followed by no digit, and the comment behind a rule ends with its line.  That last point
rests on the grammar: a registry may have names with line feeds in them, but no such name comes into
a rule, since it would have to be written in the grammar's text (`unbroken_of_readRules`).
-/

namespace ShiftReduce

open Decoding

namespace Automaton

/-! ## Parts of entries -/

/-- The numbers behind the first one of a list. -/
def furtherNumbers (ns : List Nat) : List Char :=
  ns.flatMap fun n => ", ".toList ++ (toString n).toList

theorem toList_numberList_cons (n : Nat) (ns : List Nat) :
    (numberList (n :: ns)).toList = (toString n).toList ++ furtherNumbers ns := by
  rw [numberList, String.toList_intercalate, List.map_map, List.map_cons, Grammar.intercalate_cons,
    List.flatMap_map]
  rfl

theorem head?_furtherNumbers (ns : List Nat) {x : List Char} (hx : x.head? = some ']') :
    ∀ c ∈ (furtherNumbers ns ++ x).head?, c.isDigit = false := by
  cases ns with
  | nil =>
    rw [furtherNumbers, List.flatMap_nil, List.nil_append, hx]
    exact fun c hc => Option.mem_some_iff.1 hc ▸ rfl
  | cons n ns => exact fun c hc => Option.mem_some_iff.1 hc ▸ rfl

theorem eq_of_furtherNumbers {ms ns : List Nat} {x y : List Char} (hx : x.head? = some ']')
    (hy : y.head? = some ']') (h : furtherNumbers ms ++ x = furtherNumbers ns ++ y) :
    ms = ns ∧ x = y := by
  induction ms generalizing ns with
  | nil =>
    cases ns with
    | nil => exact ⟨rfl, h⟩
    | cons n ns =>
      obtain rfl : x = furtherNumbers (n :: ns) ++ y := h
      exact absurd (Option.some.inj hx : ',' = ']') (by decide)
  | cons m ms ih =>
    cases ns with
    | nil =>
      obtain rfl : furtherNumbers (m :: ms) ++ x = y := h
      exact absurd (Option.some.inj hy : ',' = ']') (by decide)
    | cons n ns =>
      simp only [furtherNumbers, List.flatMap_cons, List.append_assoc] at h
      obtain ⟨rfl, hrest⟩ := eq_of_number (head?_furtherNumbers ms hx) (head?_furtherNumbers ns hy)
        (List.append_cancel_left h)
      obtain ⟨rfl, rfl⟩ := ih hrest
      exact ⟨rfl, rfl⟩

/-- Numbers end where a bracket stands. -/
theorem eq_of_numberList {ms ns : List Nat} {x y : List Char} (hx : x.head? = some ']')
    (hy : y.head? = some ']') (h : (numberList ms).toList ++ x = (numberList ns).toList ++ y) :
    ms = ns ∧ x = y := by
  have hdigit (n : Nat) {w z : List Char} (hz : z.head? = some ']') :
      z ≠ (toString n).toList ++ w := by
    obtain ⟨c, cs, hn, hc⟩ := exists_of_number n
    rintro rfl
    rw [hn] at hz
    obtain rfl := Option.some.inj hz
    exact absurd hc (by decide)
  cases ms with
  | nil =>
    cases ns with
    | nil => exact ⟨rfl, h⟩
    | cons n ns =>
      rw [toList_numberList_cons, List.append_assoc] at h
      exact absurd h (hdigit n hx)
  | cons m ms =>
    rw [toList_numberList_cons, List.append_assoc] at h
    cases ns with
    | nil => exact absurd h.symm (hdigit m hy)
    | cons n ns =>
      rw [toList_numberList_cons, List.append_assoc] at h
      obtain ⟨rfl, hrest⟩ :=
        eq_of_number (head?_furtherNumbers ms hx) (head?_furtherNumbers ns hy) h
      obtain ⟨rfl, rfl⟩ := eq_of_furtherNumbers hx hy hrest
      exact ⟨rfl, rfl⟩

/-- An action as it stands in an entry. -/
def actionText : Option Action.Kind → String
  | some kind => "Some(ActionKind::" ++ kind.constant ++ ")"
  | none => "None"

/-- No two actions are written alike. -/
theorem eq_of_actionText {k k' : Option Action.Kind} (h : actionText k = actionText k') :
    k = k' := by
  have hall : ∀ k : Option Action.Kind, k ∈ none :: Action.Kind.all.map some := by
    rintro (_ | ⟨⟨⟩⟩) <;> decide
  have hnodup : ((none :: Action.Kind.all.map some).map actionText).Nodup := by
    decide +kernel
  exact List.inj_on_of_nodup_map hnodup (hall k) (hall k') h

theorem comma_not_mem_actionText (k : Option Action.Kind) : ',' ∉ (actionText k).toList := by
  rcases k with _ | ⟨⟨⟩⟩ <;> decide

/-- No two codes have one name. -/
theorem eq_of_name {code code' : Cell.Code} (h : code.name = code'.name) : code = code' := by
  cases code <;> cases code' <;> first | rfl | exact absurd h (by decide)

theorem comma_not_mem_name (code : Cell.Code) : ',' ∉ code.name.toList := by
  cases code <;> decide

/-! ## Entries -/

/-- A quoted entry can be split off. -/
theorem eq_of_quotedEntry {s t : String} {x y : List Char}
    (h : (quotedEntry s).toList ++ '\n' :: x = (quotedEntry t).toList ++ '\n' :: y) :
    s = t ∧ x = y := by
  simp only [quotedEntry, String.toList_append, List.append_assoc] at h
  obtain ⟨rfl, hrest⟩ := Text.eq_of_quoted (List.append_cancel_left h)
  exact ⟨rfl, (List.cons_eq_cons.1 (List.append_cancel_left hrest)).2⟩

theorem ruleEntry_eq (symbols : Registry) (r : Rule) : ruleEntry symbols r =
    "    StaticRule \x7b lhs: " ++ toString r.lhs ++ ", rhs: &[" ++ numberList r.rhs
      ++ "], action: " ++ actionText r.action.kind ++ ", indexes: &["
      ++ numberList r.action.indexes ++ "] \x7d, // " ++ r.render symbols := by
  unfold ruleEntry actionText
  rfl

/-- The entry of a rule can be split off if its comment has no line feed in it. -/
theorem eq_of_ruleEntry {symbols symbols' : Registry} {r r' : Rule} {x y : List Char}
    (hr : '\n' ∉ (r.render symbols).toList) (hr' : '\n' ∉ (r'.render symbols').toList)
    (h : (ruleEntry symbols r).toList ++ '\n' :: x = (ruleEntry symbols' r').toList ++ '\n' :: y) :
    r = r' ∧ x = y := by
  simp only [ruleEntry_eq, String.toList_append, List.append_assoc] at h
  obtain ⟨hlhs, h⟩ := eq_of_number (by rintro c ⟨⟩; rfl) (by rintro c ⟨⟩; rfl)
    (List.append_cancel_left h)
  obtain ⟨hrhs, h⟩ := eq_of_numberList rfl rfl (List.append_cancel_left h)
  obtain ⟨hkind, h⟩ := eq_of_not_mem (comma_not_mem_actionText _) (comma_not_mem_actionText _)
    rfl rfl (List.append_cancel_left h)
  obtain ⟨hindexes, h⟩ := eq_of_numberList rfl rfl (List.append_cancel_left h)
  obtain ⟨-, hrest⟩ := eq_of_not_mem hr hr' rfl rfl (List.append_cancel_left h)
  refine ⟨?_, (List.cons_eq_cons.1 hrest).2⟩
  obtain ⟨⟨lhs, rhs⟩, kind, indexes⟩ := r
  obtain ⟨⟨lhs', rhs'⟩, kind', indexes'⟩ := r'
  obtain rfl := eq_of_actionText (String.toList_inj.1 hkind)
  obtain rfl : lhs = lhs' := hlhs
  obtain rfl : rhs = rhs' := hrhs
  obtain rfl : indexes = indexes' := hindexes
  rfl

/-- A cell as it stands in a row. -/
def cellText (c : Cell) : String :=
  " (A::" ++ c.parts.1.name ++ ", " ++ toString c.parts.2 ++ "),"

/-- A cell can be split off a row. -/
theorem eq_of_cellText {c d : Cell} {x y : List Char}
    (h : (cellText c).toList ++ x = (cellText d).toList ++ y) : c = d ∧ x = y := by
  simp only [cellText, String.toList_append, List.append_assoc] at h
  obtain ⟨hname, h⟩ := eq_of_not_mem (comma_not_mem_name _) (comma_not_mem_name _) rfl rfl
    (List.append_cancel_left h)
  obtain ⟨htarget, h⟩ := eq_of_number (by rintro c ⟨⟩; rfl) (by rintro c ⟨⟩; rfl)
    (List.append_cancel_left h)
  refine ⟨?_, List.append_cancel_left h⟩
  rw [← Cell.ofParts_parts c, ← Cell.ofParts_parts d, eq_of_name (String.toList_inj.1 hname),
    htarget]

theorem rowEntry_eq (q : StateId) (row : Array Cell) : rowEntry q row =
    "    // " ++ StateId.tag q ++ "\n   " ++ String.join (row.toList.map cellText) := rfl

theorem line_feed_not_mem_tag (q : StateId) : '\n' ∉ (StateId.tag q).toList := by
  have hdigits : '\n' ∉ Nat.toDigits 10 q := fun h =>
    absurd (Nat.isDigit_of_mem_toDigits (by decide) (by decide) h) (by decide)
  simp [StateId.tag, threeDigits, hdigits]

/-- The entry of a row can be split off. -/
theorem eq_of_rowEntry {p q : StateId} {row row' : Array Cell} {x y : List Char}
    (h : (rowEntry p row).toList ++ '\n' :: x = (rowEntry q row').toList ++ '\n' :: y) :
    row = row' ∧ x = y := by
  simp only [rowEntry_eq, String.toList_append, String.toList_join, List.flatMap_map,
    List.append_assoc] at h
  obtain ⟨-, h⟩ := eq_of_not_mem (line_feed_not_mem_tag p) (line_feed_not_mem_tag q) rfl rfl
    (List.append_cancel_left h)
  have hcell (c : Cell) : ∃ d cs, (cellText c).toList = d :: cs ∧ d ≠ '\n' := by
    simp only [cellText, String.toList_append, List.append_assoc]
    exact ⟨' ', _, rfl, by decide⟩
  obtain ⟨hrow, hrest⟩ := forall₂_of_flatMap_eq (R := (· = ·)) (fun c _ => hcell c)
    (fun c _ => hcell c) (fun c _ d _ r s => eq_of_cellText) rfl rfl (List.append_cancel_left h)
  rw [List.forall₂_eq_eq_eq] at hrow
  exact ⟨Array.toList_inj.1 hrow, (List.cons_eq_cons.1 hrest).2⟩

/-- Entries end at the bracket behind them, as they are indented: where they can be split off one
by one, the whole array can. -/
theorem forall₂_of_arrayConstant {α β : Type} {f : α → String} {g : β → String} {R : α → β → Prop}
    {name type : String} {as : List α} {bs : List β} {x y : List Char}
    (hf : ∀ a, ∃ cs, (f a).toList = ' ' :: cs) (hg : ∀ b, ∃ cs, (g b).toList = ' ' :: cs)
    (hfg : ∀ a ∈ as, ∀ b ∈ bs, ∀ r s,
      (f a).toList ++ '\n' :: r = (g b).toList ++ '\n' :: s → R a b ∧ r = s)
    (h : (arrayConstant name type (as.map f)).toList ++ x =
      (arrayConstant name type (bs.map g)).toList ++ y) : List.Forall₂ R as bs ∧ x = y := by
  have hlines {γ : Type} {f : γ → String} (hf : ∀ c, ∃ cs, (f c).toList = ' ' :: cs) (c : γ) :
      ∃ d cs, (f c ++ "\n").toList = d :: cs ∧ d ≠ ']' := by
    obtain ⟨cs, hcs⟩ := hf c
    exact ⟨' ', cs ++ ['\n'], by rw [String.toList_append, hcs]; rfl, by decide⟩
  have hsplit : ∀ a ∈ as, ∀ b ∈ bs, ∀ r s,
      (f a ++ "\n").toList ++ r = (g b ++ "\n").toList ++ s → R a b ∧ r = s := by
    intro a ha b hb r s hab
    rw [String.toList_append, String.toList_append, List.append_assoc, List.append_assoc] at hab
    exact hfg a ha b hb r s hab
  simp only [arrayConstant, String.toList_append, String.toList_join, List.map_map,
    List.flatMap_map, List.append_assoc] at h
  obtain ⟨has, hrest⟩ := forall₂_of_flatMap_eq (fun a _ => hlines hf a) (fun b _ => hlines hg b)
    hsplit rfl rfl (List.append_cancel_left (List.append_cancel_left (List.append_cancel_left
      (List.append_cancel_left (List.append_cancel_left h)))))
  exact ⟨has, List.append_cancel_left hrest⟩

end Automaton

/-! ## Names in rules -/

/-- The symbol is shown on one line. -/
def Registry.Unbroken (r : Registry) (x : SymbolId) : Prop := '\n' ∉ (r.render x).toList

theorem Registry.unbroken_of_name? {r : Registry} {x : SymbolId} {name : String}
    (h : r.name? x = some name) (hname : '\n' ∉ name.toList) : r.Unbroken x := by
  rwa [Unbroken, render, h, Option.getD_some]

namespace Grammar

theorem line_feed_not_mem_of_name {name : String} (h : (Lexeme.name name).Proper) :
    '\n' ∉ name.toList := by
  obtain ⟨c, cs, hname, hc, hcs⟩ := h
  rw [hname]
  intro hmem
  rcases List.mem_cons.1 hmem with rfl | hmem
  · exact absurd hc (by decide)
  · exact absurd (hcs _ hmem) (by decide)

/-- A range has no line feed in it, as letters and digits come behind it. -/
theorem Phrase.Class.line_feed_not_mem {body members : List Char} (h : Class body members)
    (hbody : '\n' ∉ body) : '\n' ∉ members := by
  induction h with
  | nil => exact hbody
  | range h hle hr hb hm ih =>
    simp only [List.mem_cons, not_or] at hbody
    rw [hm, List.mem_append, not_or]
    refine ⟨fun hmem => ?_, ih hbody.2.2.2⟩
    have hge := le_toNat_of_isAlphanum h.1
    have hle := char_le_iff.1 ((hr.mem_iff _).1 hmem).1
    exact absurd (Nat.le_trans hge hle) (by decide)
  | char h hb ih =>
    rw [List.mem_cons, not_or] at hbody ⊢
    exact ⟨hbody.1, ih hbody.2⟩

/-- What an element matches is written in the text, where it stands on one line. -/
theorem Element.line_feed_not_mem {e : Element} (h : e.kind.Printable) {name : String}
    (hname : name ∈ e.terminals) : '\n' ∉ name.toList := by
  obtain ⟨kind, location⟩ := e
  obtain ⟨hproper, hspells⟩ := h
  cases kind with
  | reference => cases hname
  | tokenClass name =>
    obtain rfl := List.mem_singleton.1 hname
    exact line_feed_not_mem_of_name hproper
  | literal lexeme =>
    obtain rfl := List.mem_singleton.1 hname
    exact fun hmem => (hproper.2 _ hmem).2 rfl
  | charClass body members =>
    cases hspells with
    | @charClass _ cs hcs =>
      obtain ⟨c, hc, rfl⟩ := List.mem_map.1 hname
      have hbody : '\n' ∉ body.toList.filter (!Text.isBlank ·) := fun hmem =>
        (hproper _ (List.mem_of_mem_filter hmem)).2 rfl
      intro hmem
      obtain rfl : '\n' = c := by simpa using hmem
      exact hcs.line_feed_not_mem hbody (List.mem_eraseDups.1 hc)

variable {g : Grammar} {symbols : Registry}

/-- **The names in rules that a text defines are written in the text.** -/
theorem Stems.unbroken {a : Alternative} {rule : ShiftReduce.Rule} (h : g.Stems symbols a rule)
    (hnames : ∀ r ∈ g.rules, symbols.Unbroken r.lhs)
    (hprintable : ∀ r ∈ g.rules, Printable r.name r.alternatives) :
    ∀ x ∈ rule.lhs :: rule.rhs, symbols.Unbroken x := by
  obtain ⟨r, hr, hlhs, ha⟩ := h.alternative
  refine List.forall_mem_cons.2 ⟨hlhs ▸ hnames r hr, fun x hx => ?_⟩
  obtain ⟨e, he, hoffers⟩ := h.exists_offers hx
  rcases hoffers.cases with ⟨-, -, -, r', hr', rfl⟩ | ⟨name, hname, hx⟩
  · exact hnames r' hr'
  · obtain ⟨hx, -⟩ := Option.filter_eq_some_iff.1 hx
    exact Registry.unbroken_of_name? (symbols.names.value?_number? hx)
      (e.line_feed_not_mem (((hprintable r hr).alternatives a ha).elements e he) hname)

/-- The names in the rules of a text stand on one line, whatever names are registered. -/
theorem unbroken_of_readRules {limits : Limits} {source : String} {registry : Registry}
    {rules : Array ShiftReduce.Rule}
    (h : (Automaton.readRules limits source).runOn registry = (.ok (g, rules), symbols)) :
    ∀ rule ∈ rules, ∀ x ∈ rule.lhs :: rule.rhs, symbols.Unbroken x := by
  obtain ⟨r, accept, hparse, haccept, hrules⟩ := Automaton.exists_of_readRules h
  obtain ⟨⟨ds, hgathers⟩, hprintable⟩ := printable_of_parse hparse
  have hexpanded := expanded_of_rulesOver hrules
  obtain ⟨hname, -⟩ := Registry.addNonterminal_ok haccept
  have hextends : Registry.Extends r symbols := by
    simpa only [haccept] using Registry.extends_addNonterminal r augmentedStart
  have hnames : ∀ rule ∈ g.rules, symbols.Unbroken rule.lhs := fun rule hrule =>
    Registry.unbroken_of_name? (hextends.name _ _ (hgathers.rules.lhs rule hrule))
      (line_feed_not_mem_of_name (hprintable rule hrule).name)
  intro rule hrule
  obtain ⟨n, hn⟩ := Array.getElem?_of_mem hrule
  by_cases hstart : n = RuleId.start
  · -- the first rule has `S'` and the name of the first definition
    subst hstart
    obtain rfl := Option.some.inj (hexpanded.first.symm.trans hn)
    obtain ⟨first, hfirst, hlhs⟩ := Option.map_eq_some_iff.1 hgathers.start
    simp only [List.forall_mem_cons]
    exact ⟨Registry.unbroken_of_name? hname (by decide),
      hlhs ▸ hnames first (List.mem_of_mem_head? hfirst), nofun⟩
  · obtain ⟨a, hstems⟩ := hexpanded.stems hn hstart
    exact hstems.unbroken hnames hprintable

end Grammar

theorem Rule.line_feed_not_mem_render {symbols : Registry} {rule : Rule}
    (h : ∀ x ∈ rule.lhs :: rule.rhs, symbols.Unbroken x) :
    '\n' ∉ (rule.render symbols).toList := by
  obtain ⟨hlhs, hrhs⟩ := List.forall_mem_cons.1 h
  have htext : '\n' ∉
      (String.join (rule.rhs.map fun x => " " ++ symbols.render x)).toList := by
    simp only [String.toList_join, List.mem_flatMap, List.mem_map]
    rintro ⟨_, ⟨x, hx, rfl⟩, hmem⟩
    rcases List.mem_append.1 (String.toList_append ▸ hmem) with hmem | hmem
    · exact absurd hmem (by decide)
    · exact hrhs x hx hmem
  unfold render
  simp only [String.toList_append, List.mem_append, not_or]
  refine ⟨⟨hlhs, by decide⟩, ?_⟩
  split
  · decide
  · exact htext

/-! ## Modules -/

namespace Automaton

/-- No name reaches beyond its entry: comments end with their lines, and what is quoted is one
quotation on one line. -/
structure Legible (a : Automaton) : Prop where
  comments : ∀ rule ∈ a.rules, '\n' ∉ (rule.render a.symbols).toList
  symbols : ∀ name ∈ a.symbols.toList, Text.Quotation (Text.quoted name).toList
  kernels : ∀ kernel ∈ a.kernels, Text.Quotation (Text.quoted kernel).toList

variable {config config' : Config} {registry registry' : Registry} {source source' : String}
  {a b : Automaton}

theorem legible_of_generate (h : generate config registry source = .ok a) : a.Legible := by
  obtain ⟨c, lookaheads, result, hp⟩ := parts_of_generate h
  exact ⟨fun rule hrule =>
      Rule.line_feed_not_mem_render (Grammar.unbroken_of_readRules hp.read rule hrule),
    fun name _ => Text.quotation_quoted name, fun kernel _ => Text.quotation_quoted kernel⟩

theorem exists_of_quotedEntry (s : String) : ∃ cs, (quotedEntry s).toList = ' ' :: cs := by
  simp only [quotedEntry, String.toList_append, List.append_assoc]
  exact ⟨_, rfl⟩

theorem exists_of_ruleEntry (symbols : Registry) (r : Rule) :
    ∃ cs, (ruleEntry symbols r).toList = ' ' :: cs := by
  simp only [ruleEntry_eq, String.toList_append, List.append_assoc]
  exact ⟨_, rfl⟩

theorem exists_of_rowEntry (q : StateId) (row : Array Cell) :
    ∃ cs, (rowEntry q row).toList = ' ' :: cs := by
  simp only [rowEntry_eq, String.toList_append, List.append_assoc]
  exact ⟨_, rfl⟩

/-- Quoted entries are told apart. -/
theorem eq_of_quotedEntries {name : String} {ss ts : List String} {x y : List Char}
    (h : (arrayConstant name "&str" (ss.map quotedEntry)).toList ++ x =
      (arrayConstant name "&str" (ts.map quotedEntry)).toList ++ y) : ss = ts ∧ x = y := by
  obtain ⟨hst, hrest⟩ := forall₂_of_arrayConstant (R := (· = ·)) exists_of_quotedEntry
    exists_of_quotedEntry (fun s _ t _ r r' => eq_of_quotedEntry) h
  exact ⟨List.forall₂_eq_eq_eq ▸ hst, hrest⟩

/-- Rows are told apart, their numbers being those of their places. -/
theorem eq_of_rowEntries {name type : String} {rows rows' : Array (Array Cell)} {x y : List Char}
    (h : (arrayConstant name type
        (rows.toList.zipIdx.map fun (row, q) => rowEntry q row)).toList ++ x =
      (arrayConstant name type
        (rows'.toList.zipIdx.map fun (row, q) => rowEntry q row)).toList ++ y) :
    rows = rows' ∧ x = y := by
  have hindented : ∀ p : Array Cell × StateId, ∃ cs,
      ((fun (row, q) => rowEntry q row : Array Cell × StateId → String) p).toList = ' ' :: cs :=
    fun ⟨row, q⟩ => exists_of_rowEntry q row
  obtain ⟨hrows, hrest⟩ := forall₂_of_arrayConstant (R := fun p q => p.1 = q.1) hindented hindented
    (fun ⟨row, q⟩ _ ⟨row', q'⟩ _ r s => eq_of_rowEntry) h
  rw [← List.forall₂_map_right_iff, ← List.forall₂_map_left_iff, List.forall₂_eq_eq_eq,
    List.zipIdx_map_fst, List.zipIdx_map_fst] at hrows
  exact ⟨Array.toList_inj.1 hrows, hrest⟩

/-- **A legible module says what the flat table is.** -/
theorem Legible.flat_eq (ha : a.Legible) (hb : b.Legible) {runtime : String}
    (h : a.tableModule runtime = b.tableModule runtime) : a.flat = b.flat := by
  unfold tableModule at h
  have h := congrArg String.toList h
  simp only [String.toList_append, List.append_assoc] at h
  -- the header
  iterate 8 replace h := List.append_cancel_left h
  obtain ⟨hsymbols, h⟩ := eq_of_quotedEntries h
  obtain ⟨hcount, h⟩ := eq_of_number (by rintro c ⟨⟩; rfl) (by rintro c ⟨⟩; rfl)
    (List.append_cancel_left h)
  obtain ⟨hrules, h⟩ := forall₂_of_arrayConstant (R := (· = ·)) (exists_of_ruleEntry a.symbols)
    (exists_of_ruleEntry b.symbols)
    (fun rule hrule rule' hrule' r s => eq_of_ruleEntry
      (ha.comments rule (Array.mem_toList_iff.1 hrule))
      (hb.comments rule' (Array.mem_toList_iff.1 hrule')))
    (List.append_cancel_left h)
  obtain ⟨hrows, h⟩ := eq_of_rowEntries h
  obtain ⟨hkernels, -⟩ := eq_of_quotedEntries h
  have hvalues : a.symbols.names.values = b.symbols.names.values := Array.toList_inj.1 hsymbols
  have hrules : a.rules = b.rules := Array.toList_inj.1 (List.forall₂_eq_eq_eq ▸ hrules)
  have hcells : a.cells.cells = b.cells.cells := congrArg Array.flatten hrows
  simp only [flat, hvalues, hcount, hrules, hcells, hkernels]

/-- **A generated module determines its tables**: whatever names are registered, no name can end its
comment or its quotation early, and two automata with equal modules have the same names in the same
order, the same number of terminals, the same rules, cells and kernels. -/
theorem flat_eq_of_tableModule_eq (h : generate config registry source = .ok a) : a.Legible ∧
    ∀ config' registry' source' b, generate config' registry' source' = .ok b →
      ∀ runtime, a.tableModule runtime = b.tableModule runtime → a.flat = b.flat :=
  ⟨legible_of_generate h, fun _ _ _ _ hb _ hmodule =>
    (legible_of_generate h).flat_eq (legible_of_generate hb) hmodule⟩

/-- A registry with a name that would end a quotation, a line and an array, and two texts with the
same rules at different places. -/
theorem flat_eq_of_tableModule_eq_line_feed : ∃ (registry : Registry) (a b : Automaton),
    Registry.withTerminals ["NUM", "\"\n];\n//"] = .ok registry ∧
    generate {} registry "s = NUM;" = .ok a ∧ generate {} registry "# s\ns = NUM" = .ok b ∧
    a.grammar.rules.map (·.location) ≠ b.grammar.rules.map (·.location) ∧
    a.tableModule defaultRuntime = b.tableModule defaultRuntime ∧ a.Legible ∧ a.flat = b.flat := by
  have hok : (Registry.withTerminals ["NUM", "\"\n];\n//"]).toOption.any (fun registry =>
      (generate {} registry "s = NUM;").toOption.any fun a =>
        (generate {} registry "# s\ns = NUM").toOption.any fun b =>
          a.grammar.rules.map (·.location) ≠ b.grammar.rules.map (·.location) ∧
          a.tableModule defaultRuntime = b.tableModule defaultRuntime) = true := by
    decide +kernel
  obtain ⟨registry, hregistry, hok⟩ := Except.exists_of_any_toOption hok
  obtain ⟨a, ha, hok⟩ := Except.exists_of_any_toOption hok
  obtain ⟨b, hb, hok⟩ := Except.exists_of_any_toOption hok
  obtain ⟨hlocations, hmodule⟩ := of_decide_eq_true hok
  obtain ⟨hlegible, hflat⟩ := flat_eq_of_tableModule_eq ha
  exact ⟨registry, a, b, hregistry, ha, hb, hlocations, hmodule, hlegible,
    hflat {} registry _ b hb defaultRuntime hmodule⟩

end Automaton
end ShiftReduce

import ShiftReduce.Proofs.Gathering

/-!
# Proofs/Printing — a printed grammar is read as the same grammar

What the readers take off a text can be written again (`Printable`): a literal that has a single
quote in it came from between double ones, so it holds none of these.  The text of a grammar is made
of the lexemes that its rules are printed with (`Spells`), and these lexemes spell definitions that
differ from the rules in nothing but their places (`Alternative.unplaced`).
-/

namespace ShiftReduce.Grammar

/-! ## Without places -/

/-- An alternative with no places of its own. -/
def Alternative.unplaced (a : Alternative) : Alternative where
  elements := a.elements.map fun e => { e with location := .start }
  action := a.action.map fun w => { w with location := .start }
  location := .start

/-- A rule without places and without its symbol. -/
def Rule.outline (rule : Rule) : String × List Alternative :=
  (rule.name, rule.alternatives.map Alternative.unplaced)

/-- A definition without places. -/
def Definition.outline (d : Definition) : String × List Alternative :=
  (d.name, d.alternatives.map Alternative.unplaced)

/-- Places are not printed. -/
theorem render_unplaced (a : Alternative) : a.unplaced.render = a.render := by
  have helements : a.unplaced.elements.map Element.render = a.elements.map Element.render :=
    List.map_map
  have hempty : a.unplaced.elements.isEmpty = a.elements.isEmpty := List.isEmpty_map
  rw [Alternative.render, helements, hempty, Alternative.render]
  cases h : a.action <;> simp [Alternative.unplaced, h, WrittenAction.render]

theorem lexemes_unplaced (a : Alternative) :
    a.unplaced.elements.flatMap Element.lexemes = a.elements.flatMap Element.lexemes :=
  List.flatMap_map ..

/-! ## The lexemes of a printed grammar -/

/-- The lexeme that an element is printed as. -/
def Element.Kind.lexeme : Element.Kind → Lexeme
  | .reference name | .tokenClass name => .name name
  | .literal body => .quoted (if body.toList.contains '\'' then '"' else '\'') body
  | .charClass body _ => .charClass body

/-- The lexemes between the braces of a written action. -/
def WrittenAction.parts (w : WrittenAction) : List Lexeme :=
  w.name.toList.map .name ++ w.indexes.map fun i => .number (toString i)

/-- The lexemes that a written action is printed as. -/
def WrittenAction.printed (w : WrittenAction) : List Lexeme :=
  .openBrace :: (w.parts ++ [.closeBrace])

/-- The lexemes that the elements of an alternative are printed as. -/
def printedElements : List Element → List Lexeme
  | [] => [.name Terminal.epsilon]
  | e :: es => (e :: es).map (·.kind.lexeme)

/-- The lexemes that an alternative is printed as. -/
def Alternative.printed (a : Alternative) : List Lexeme :=
  printedElements a.elements ++ (a.action.map WrittenAction.printed).getD []

/-- The lexemes that alternatives are printed as. -/
def printedAlternatives : List Alternative → List Lexeme
  | [] => []
  | a :: as => a.printed ++ as.flatMap fun a => .bar :: a.printed

/-- The lexemes that a rule is printed as. -/
def Rule.printed (rule : Rule) : List Lexeme :=
  .name rule.name :: .equals :: (printedAlternatives rule.alternatives ++ [.semicolon])

/-! ## What can be printed -/

/-- An element that is what it is printed as. -/
structure Element.Kind.Printable (kind : Element.Kind) : Prop where
  proper : kind.lexeme.Proper
  spells : Phrase.Kind kind.lexeme kind

/-- An action that is what it is printed as. -/
structure WrittenAction.Printable (w : WrittenAction) : Prop where
  name : ∀ name ∈ w.name, (Lexeme.name name).Proper
  indexes : ∀ i ∈ w.indexes, i ≤ maxIndex
  ne_nil : w.name = none → w.indexes ≠ []

/-- An alternative that is what it is printed as. -/
structure Alternative.Printable (a : Alternative) : Prop where
  elements : ∀ e ∈ a.elements, e.kind.Printable
  action : ∀ w ∈ a.action, w.Printable

/-- A name and alternatives that are what they are printed as. -/
structure Printable (name : String) (as : List Alternative) : Prop where
  name : (Lexeme.name name).Proper
  ne_nil : as ≠ []
  alternatives : ∀ a ∈ as, a.Printable

/-- A body between quotes has none of one kind; double quotes are for those with single ones. -/
theorem Phrase.Kind.printable {l : Lexeme} {kind : Element.Kind} (h : Phrase.Kind l kind)
    (hl : l.Proper) : kind.Printable := by
  cases h with
  | reference hne hc => exact ⟨hl, .reference hne hc⟩
  | tokenClass hne hc => exact ⟨hl, .tokenClass hne hc⟩
  | charClass hcs hne => exact ⟨hl, .charClass hcs hne⟩
  | @literal mark body hb =>
    refine ⟨?_, .literal hb⟩
    obtain ⟨hmark, hbody⟩ := hl
    rw [Element.Kind.lexeme]
    split
    · next hquote =>
      have hm : mark = '"' := hmark.resolve_left fun heq =>
        (hbody '\'' (by simpa using hquote)).1 heq.symm
      exact ⟨.inr rfl, hm ▸ hbody⟩
    · next hquote =>
      refine ⟨.inl rfl, fun d hd => ⟨?_, (hbody d hd).2⟩⟩
      rintro rfl
      exact hquote (by simpa using hd)

variable {ts : Lexemes}

/-- Elements that are spelled by proper lexemes can be printed. -/
theorem Phrase.printable_of_forall₂ {es : List Grammar.Element}
    (h : List.Forall₂ Phrase.Element ts es) (hts : ∀ t ∈ ts, t.value.Proper) :
    ∀ e ∈ es, e.kind.Printable := by
  induction h with
  | nil => simp
  | cons he _ ih =>
    obtain ⟨ht, hts⟩ := List.forall_mem_cons.1 hts
    exact List.forall_mem_cons.2 ⟨he.1.printable ht, ih hts⟩

/-- A written action has its name and its indexes from the text, so they can be written again. -/
theorem Phrase.Action.printable {w : WrittenAction} (h : Phrase.Action ts (some w))
    (hts : ∀ t ∈ ts, t.value.Proper) : w.Printable := by
  have hindexes {us : Lexemes} {ns : List Nat} (hs : List.Forall₂ Index us ns) :
      ∀ n ∈ ns, n ≤ maxIndex := by
    induction hs with
    | nil => simp
    | cons hn _ ih =>
      obtain ⟨_, -, -, hle⟩ := hn
      exact List.forall_mem_cons.2 ⟨hle, ih⟩
  cases h with
  | forward h hne => exact ⟨nofun, hindexes h, fun _ => hne⟩
  | @named opening place closing name us ns h =>
    refine ⟨fun n hn => ?_, hindexes h, nofun⟩
    obtain rfl := Option.some.inj hn
    exact hts ⟨.name name, place⟩ (by simp)

/-- An alternative can be printed, as its elements and its action can. -/
theorem Phrase.Alternative.printable {behind : Location} {a : Grammar.Alternative}
    (h : Phrase.Alternative behind ts a) (hts : ∀ t ∈ ts, t.value.Proper) : a.Printable := by
  obtain @⟨ts, us, es, action, he, ha⟩ := h
  obtain ⟨hts, hus⟩ := List.forall_mem_append.1 hts
  refine ⟨?_, fun w hw => ?_⟩
  · cases he with
    | empty => simp
    | elements hs => exact printable_of_forall₂ hs hts
  · obtain rfl : action = some w := hw
    exact ha.printable hus

/-- There is at least one alternative, and each can be printed. -/
theorem Phrase.Alternatives.printable {behind : Location} {as : List Grammar.Alternative}
    (h : Phrase.Alternatives behind ts as) (hts : ∀ t ∈ ts, t.value.Proper) :
    as ≠ [] ∧ ∀ a ∈ as, a.Printable := by
  induction h with
  | single h => exact ⟨nofun, by simpa using h.printable hts⟩
  | bar h hs ih =>
    obtain ⟨hts, hus⟩ := List.forall_mem_append.1 hts
    exact ⟨nofun, List.forall_mem_cons.2
      ⟨h.printable hts, (ih (List.forall_mem_cons.1 hus).2).2⟩⟩

/-- **What a text defines can be printed.** -/
theorem Phrase.Definitions.printable {finish : Location} {ds : List Grammar.Definition}
    (h : Phrase.Definitions finish ts ds) (hts : ∀ t ∈ ts, t.value.Proper) :
    ∀ d ∈ ds, Printable d.name d.alternatives := by
  induction h with
  | nil => simp
  | semicolon h ih => exact ih (List.forall_mem_cons.1 hts).2
  | definition h hs ih =>
    obtain ⟨hts, hus⟩ := List.forall_mem_append.1 hts
    obtain ⟨h⟩ := h
    obtain ⟨hname, hts⟩ := List.forall_mem_cons.1 hts
    obtain ⟨hne, has⟩ := h.printable (List.forall_mem_cons.1 hts).2
    exact List.forall_mem_cons.2 ⟨⟨hname, hne, has⟩, ih hus⟩

/-! ## Printed texts are made of the lexemes -/

/-- An element is printed as its lexeme. -/
theorem toList_render (e : Element) : e.render.toList = e.kind.lexeme.text := by
  obtain ⟨kind, location⟩ := e
  cases kind with
  | reference name => rfl
  | tokenClass name => rfl
  | literal body =>
    simp only [Element.render, Element.Kind.lexeme, Lexeme.text]
    split <;> simp
  | charClass body members => simp [Element.render, Element.Kind.lexeme, Lexeme.text]

/-- An index that is printed in decimals is read back as the same number. -/
theorem natOfDigits_toString (n : Nat) : Double.natOfDigits (toString n).toList = n := by
  rw [Nat.toString_eq_ofList_toDigits, String.toList_ofList]
  exact Nat.ofDigitChars_ten_toDigits

/-- Decimals are digits, and there is at least one. -/
theorem proper_number (n : Nat) : (Lexeme.number (toString n)).Proper := by
  rw [Lexeme.Proper, Nat.toString_eq_ofList_toDigits, String.toList_ofList]
  exact ⟨Nat.toDigits_ne_nil, fun d hd => Nat.isDigit_of_mem_toDigits (by decide) (by decide) hd⟩

theorem blank_space : Blank ' ' := .inr rfl

theorem blank_line_feed : Blank '\n' := .inl rfl

theorem separates_space : Separates [' '] [] := ⟨' ', [], rfl, blank_space, fun _ _ h => h⟩

/-- Before an alternative on a line of its own. -/
theorem separates_bar : Separates "\n    | ".toList [.bar] := by
  refine ⟨'\n', "    | ".toList, rfl, blank_line_feed, fun cs ls h => ?_⟩
  have hbar : (Lexeme.bar).Proper := trivial
  exact .blank blank_space (.blank blank_space (.blank blank_space (.blank blank_space
    (hbar.spells.append blank_space h))))

/-- An action is printed with a blank before each of its parts and before the closing brace. -/
theorem toList_renderAction (w : WrittenAction) : w.render.toList =
    ['\x7b'] ++ (w.parts.flatMap fun l => [' '] ++ l.text) ++ ' ' :: ['\x7d'] := by
  obtain ⟨name, indexes, location⟩ := w
  cases name <;>
    simp [WrittenAction.render, Action.renderParts, WrittenAction.parts, String.toList_append,
      String.toList_join, List.flatMap_map, Lexeme.text]

theorem WrittenAction.Printable.spells {w : WrittenAction} (h : w.Printable) :
    Spells w.render.toList w.printed := by
  have hparts : ∀ l ∈ w.parts, Spells l.text [l] := by
    intro l hl
    rcases List.mem_append.1 hl with hl | hl
    · obtain ⟨name, hname, rfl⟩ := List.mem_map.1 hl
      exact (h.name name (by simpa using hname)).spells
    · obtain ⟨i, -, rfl⟩ := List.mem_map.1 hl
      exact (proper_number i).spells
  have hopen : (Lexeme.openBrace).Proper := trivial
  have hclose : (Lexeme.closeBrace).Proper := trivial
  rw [toList_renderAction]
  simpa [WrittenAction.printed, Lexeme.text] using
    (hopen.spells.flatMap separates_space hparts).append blank_space hclose.spells

/-- Elements are printed with blanks between them. -/
theorem spells_elements {e : Element} {es : List Element}
    (h : ∀ e' ∈ e :: es, e'.kind.Printable) :
    Spells (" ".intercalate ((e :: es).map Element.render)).toList
      ((e :: es).map (·.kind.lexeme)) := by
  obtain ⟨he, hes⟩ := List.forall_mem_cons.1 h
  have hspells := he.proper.spells.flatMap (f := fun e' : Element => e'.kind.lexeme.text)
    (g := fun e' => [e'.kind.lexeme]) separates_space fun e' h' => (hes e' h').proper.spells
  rw [String.toList_intercalate, List.map_map, List.map_cons, intercalate_cons, List.flatMap_map]
  simpa [toList_render, ← List.map_eq_flatMap] using hspells

/-- An alternative without elements is printed as the name of the empty string. -/
theorem Alternative.Printable.spells {a : Alternative} (h : a.Printable) :
    Spells a.render.toList a.printed := by
  obtain ⟨elements, action, location⟩ := a
  have hepsilon : (Lexeme.name Terminal.epsilon).Proper :=
    ⟨'E', "PSILON".toList, rfl, rfl, List.all_eq_true.1 rfl⟩
  have helements : Spells (if elements.isEmpty then Terminal.epsilon
      else " ".intercalate (elements.map Element.render)).toList (printedElements elements) := by
    cases elements with
    | nil => exact hepsilon.spells
    | cons e es => exact spells_elements h.elements
  cases action with
  | none => simpa [Alternative.render, Alternative.printed] using helements
  | some w =>
    simpa [Alternative.render, Alternative.printed] using
      helements.append blank_space (h.action w rfl).spells

/-- Alternatives are printed on lines of their own, with bars before all but the first. -/
theorem spells_alternatives {as : List Alternative} (hne : as ≠ []) (h : ∀ a ∈ as, a.Printable) :
    Spells ("\n    | ".intercalate (as.map Alternative.render)).toList
      (printedAlternatives as) := by
  obtain ⟨a, as, rfl⟩ := List.exists_cons_of_ne_nil hne
  obtain ⟨ha, has⟩ := List.forall_mem_cons.1 h
  have hspells := ha.spells.flatMap separates_bar fun a' ha' => (has a' ha').spells
  rw [String.toList_intercalate, List.map_map, List.map_cons, intercalate_cons, List.flatMap_map]
  simpa [printedAlternatives] using hspells

/-- A rule is printed with a line feed behind it. -/
theorem Printable.spells {rule : Rule} (h : Printable rule.name rule.alternatives) :
    ∃ cs, rule.render.toList = cs ++ ['\n'] ∧ Spells cs rule.printed := by
  have hequals : (Lexeme.equals).Proper := trivial
  have hsemicolon : (Lexeme.semicolon).Proper := trivial
  have hend : Spells "   ;".toList [.semicolon] :=
    .blank blank_space (.blank blank_space (.blank blank_space hsemicolon.spells))
  refine ⟨_, ?_, ((h.name.spells.append blank_space hequals.spells).append blank_space
    (spells_alternatives h.ne_nil h.alternatives)).append blank_line_feed
    (.blank blank_space hend)⟩
  simp [Rule.render, Lexeme.text]

/-- **A grammar is printed as a text that is made of its lexemes.** -/
theorem spelling_render {rules : List Rule}
    (h : ∀ rule ∈ rules, Printable rule.name rule.alternatives) :
    Spelling (String.join (rules.map Rule.render)).toList (rules.flatMap Rule.printed) := by
  rw [String.toList_join, List.flatMap_map]
  induction rules with
  | nil => exact .nil
  | cons rule rules ih =>
    obtain ⟨hrule, hrules⟩ := List.forall_mem_cons.1 h
    obtain ⟨cs, hcs, hspells⟩ := hrule.spells
    rw [List.flatMap_cons, List.flatMap_cons, hcs, List.append_assoc, List.singleton_append]
    exact hspells _ _ _ blank_line_feed (ih hrules)

/-! ## The lexemes spell what is printed -/

/-- The lexemes of elements spell elements of the same kinds. -/
theorem exists_forall₂_element {es : List Element} (hts : ts.map (·.value) = es.map (·.kind.lexeme))
    (h : ∀ e ∈ es, e.kind.Printable) : ∃ es', List.Forall₂ Phrase.Element ts es' ∧
      es'.map (·.kind) = es.map (·.kind) := by
  induction es generalizing ts with
  | nil =>
    obtain rfl := List.map_eq_nil_iff.1 hts
    exact ⟨[], .nil, rfl⟩
  | cons e es ih =>
    obtain ⟨t, ts, rfl, ht, hts⟩ := List.map_eq_cons_iff.1 hts
    obtain ⟨he, hes⟩ := List.forall_mem_cons.1 h
    obtain ⟨es', hs, hkinds⟩ := ih hts hes
    exact ⟨⟨e.kind, t.location⟩ :: es', .cons ⟨ht ▸ he.spells, rfl⟩ hs,
      congrArg (e.kind :: ·) hkinds⟩

/-- The name of the empty string spells no elements, which is what it is printed for. -/
theorem exists_elements {es : List Element} (hts : ts.map (·.value) = printedElements es)
    (h : ∀ e ∈ es, e.kind.Printable) : ∃ es', Phrase.Elements ts es' ∧
      es'.map (·.kind) = es.map (·.kind) := by
  cases es with
  | nil =>
    obtain ⟨t, ts, rfl, ht, hts⟩ := List.map_eq_cons_iff.1 hts
    obtain rfl := List.map_eq_nil_iff.1 hts
    exact ⟨[], .empty (by simpa using ht), rfl⟩
  | cons e es =>
    obtain ⟨es', hs, hkinds⟩ := exists_forall₂_element hts h
    exact ⟨es', .elements hs (by rintro rfl; cases hkinds), hkinds⟩

theorem forall₂_index {ns : List Nat} (hts : ts.map (·.value) = ns.map (.number <| toString ·))
    (h : ∀ n ∈ ns, n ≤ maxIndex) : List.Forall₂ Phrase.Index ts ns := by
  induction ns generalizing ts with
  | nil =>
    obtain rfl := List.map_eq_nil_iff.1 hts
    exact .nil
  | cons n ns ih =>
    obtain ⟨t, ts, rfl, ht, hts⟩ := List.map_eq_cons_iff.1 hts
    obtain ⟨hn, hns⟩ := List.forall_mem_cons.1 h
    exact .cons ⟨_, ht, natOfDigits_toString n, hn⟩ (ih hts hns)

theorem exists_cons_of_values {l : Lexeme} {ls : List Lexeme} (h : ts.map (·.value) = l :: ls) :
    ∃ place us, ts = ⟨l, place⟩ :: us ∧ us.map (·.value) = ls := by
  obtain ⟨⟨_, place⟩, us, rfl, rfl, hus⟩ := List.map_eq_cons_iff.1 h
  exact ⟨place, us, rfl, hus⟩

theorem exists_singleton_of_values {l : Lexeme} (h : ts.map (·.value) = [l]) :
    ∃ place, ts = [⟨l, place⟩] := by
  obtain ⟨place, us, rfl, hus⟩ := exists_cons_of_values h
  obtain rfl := List.map_eq_nil_iff.1 hus
  exact ⟨place, rfl⟩

theorem exists_action {w : WrittenAction} (hts : ts.map (·.value) = w.printed) (h : w.Printable) :
    ∃ place, Phrase.Action ts (some { w with location := place }) := by
  obtain ⟨name, indexes, location⟩ := w
  obtain ⟨place, inner, rfl, hinner⟩ := exists_cons_of_values hts
  obtain ⟨us, vs, rfl, hus, hvs⟩ := List.map_eq_append_iff.1 hinner
  obtain ⟨closing, rfl⟩ := exists_singleton_of_values hvs
  refine ⟨place, ?_⟩
  cases name with
  | none => exact .forward (forall₂_index hus h.indexes) (h.ne_nil rfl)
  | some name =>
    obtain ⟨place', us, rfl, hindexes⟩ := exists_cons_of_values hus
    exact .named (forall₂_index hindexes h.indexes)

/-- The lexemes of an alternative spell it but for its places. -/
theorem exists_alternative {behind : Location} {a : Alternative}
    (hts : ts.map (·.value) = a.printed) (h : a.Printable) :
    ∃ a', Phrase.Alternative behind ts a' ∧ a'.unplaced = a.unplaced := by
  obtain ⟨us, vs, rfl, hus, hvs⟩ := List.map_eq_append_iff.1 hts
  obtain ⟨es', hes', hkinds⟩ := exists_elements hus h.elements
  obtain ⟨action', haction', hunplaced⟩ : ∃ action', Phrase.Action vs action' ∧
      action'.map (fun w => { w with location := .start }) = a.unplaced.action := by
    obtain ⟨es, action, location⟩ := a
    cases action with
    | none =>
      obtain rfl := List.map_eq_nil_iff.1 hvs
      exact ⟨none, .absent, rfl⟩
    | some w =>
      obtain ⟨place, hw⟩ := exists_action hvs (h.action w rfl)
      exact ⟨_, hw, rfl⟩
  have helements : es'.map (fun e => { e with location := .start }) = a.unplaced.elements := by
    have hmap := congrArg (List.map fun kind => Element.mk kind .start) hkinds
    rwa [List.map_map, List.map_map] at hmap
  refine ⟨_, .mk hes' haction', ?_⟩
  simp [Alternative.unplaced, helements, hunplaced]

theorem printedAlternatives_cons_cons (a b : Alternative) (as : List Alternative) :
    printedAlternatives (a :: b :: as) = a.printed ++ .bar :: printedAlternatives (b :: as) := rfl

/-- The lexemes of alternatives spell them but for their places, as bars part them. -/
theorem exists_alternatives (behind : Location) {as : List Alternative} (hne : as ≠ [])
    (hts : ts.map (·.value) = printedAlternatives as) (h : ∀ a ∈ as, a.Printable) :
    ∃ as', Phrase.Alternatives behind ts as' ∧
      as'.map Alternative.unplaced = as.map Alternative.unplaced := by
  induction as generalizing ts with
  | nil => exact absurd rfl hne
  | cons a as ih =>
    obtain ⟨ha, has⟩ := List.forall_mem_cons.1 h
    cases as with
    | nil =>
      obtain ⟨a', ha', hunplaced⟩ :=
        exists_alternative (by simpa [printedAlternatives] using hts) ha
      exact ⟨[a'], .single ha', congrArg (fun a => [a]) hunplaced⟩
    | cons b as =>
      rw [printedAlternatives_cons_cons] at hts
      obtain ⟨us, vs, rfl, hus, hvs⟩ := List.map_eq_append_iff.1 hts
      obtain ⟨place, ws, rfl, hws⟩ := exists_cons_of_values hvs
      obtain ⟨a', ha', hunplaced⟩ := exists_alternative hus ha
      obtain ⟨as', has', hs⟩ := ih nofun hws has
      exact ⟨a' :: as', .bar ha' has', congrArg₂ List.cons hunplaced hs⟩

/-- **The lexemes of printed rules spell definitions that are the rules but for their places.** -/
theorem exists_definitions (finish : Location) {rules : List Rule}
    (hts : ts.map (·.value) = rules.flatMap Rule.printed)
    (h : ∀ rule ∈ rules, Printable rule.name rule.alternatives) :
    ∃ ds, Phrase.Definitions finish ts ds ∧
      ds.map Definition.outline = rules.map Rule.outline := by
  induction rules generalizing ts with
  | nil =>
    obtain rfl := List.map_eq_nil_iff.1 hts
    exact ⟨[], .nil, rfl⟩
  | cons rule rules ih =>
    obtain ⟨hrule, hrules⟩ := List.forall_mem_cons.1 h
    obtain ⟨us, vs, rfl, hus, hvs⟩ := List.map_eq_append_iff.1 hts
    obtain ⟨place, us₁, rfl, hus₁⟩ := exists_cons_of_values hus
    obtain ⟨place', us₂, rfl, hus₂⟩ := exists_cons_of_values hus₁
    obtain ⟨us₃, ws, rfl, hus₃, hws⟩ := List.map_eq_append_iff.1 hus₂
    obtain ⟨behind, rfl⟩ := exists_singleton_of_values hws
    obtain ⟨as, has, hunplaced⟩ :=
      exists_alternatives behind hrule.ne_nil hus₃ hrule.alternatives
    obtain ⟨ds, hds, houtlines⟩ := ih hvs hrules
    refine ⟨⟨rule.name, as, place⟩ :: ds, ?_,
      congrArg₂ List.cons (congrArg (rule.name, ·) hunplaced) houtlines⟩
    have hdefinition : Phrase.Definitions finish
        (⟨.name rule.name, place⟩ :: ⟨.equals, place'⟩ :: us₃ ++ ⟨.semicolon, behind⟩ :: vs)
        (⟨rule.name, as, place⟩ :: ds) := .definition (.mk has) (.semicolon hds)
    simpa using hdefinition

/-! ## What a text quotes -/

/-- The literals among the lexemes that an element matches. -/
def Element.literals (e : Element) : List String :=
  match e.kind with
  | .literal body => [body]
  | _ => []

/-- The literals of an alternative. -/
def Alternative.literals (a : Alternative) : List String := a.elements.flatMap Element.literals

theorem literals_unplaced (a : Alternative) : a.unplaced.literals = a.literals :=
  List.flatMap_map ..

theorem quotedBodies_append (ts us : Lexemes) :
    quotedBodies (ts ++ us) = quotedBodies ts ++ quotedBodies us := List.filterMap_append

theorem quotedBodies_quoted (mark : Char) (body : String) (place : Location) :
    quotedBodies (⟨.quoted mark body, place⟩ :: ts) = body :: quotedBodies ts :=
  List.filterMap_cons_some rfl

theorem quotedBodies_cons {t : Located Lexeme} (h : ∀ mark body, t.value ≠ .quoted mark body) :
    quotedBodies (t :: ts) = quotedBodies ts := by
  refine List.filterMap_cons_none ?_
  split
  · next hv => exact absurd hv (h _ _)
  · rfl

theorem quotedBodies_of_index {ns : List Nat} (h : List.Forall₂ Phrase.Index ts ns) :
    quotedBodies ts = [] := by
  induction h with
  | nil => rfl
  | cons hn _ ih =>
    obtain ⟨digits, ht, -⟩ := hn
    rw [quotedBodies_cons (by simp [ht]), ih]

/-- An action quotes nothing, as it holds a name and numbers. -/
theorem quotedBodies_of_action {w : Option WrittenAction} (h : Phrase.Action ts w) :
    quotedBodies ts = [] := by
  cases h with
  | absent => rfl
  | empty => rfl
  | forward hs =>
    rw [quotedBodies_cons (by simp), quotedBodies_append, quotedBodies_of_index hs]
    rfl
  | named hs =>
    rw [quotedBodies_cons (by simp), quotedBodies_cons (by simp), quotedBodies_append,
      quotedBodies_of_index hs]
    rfl

theorem quotedBodies_of_element {es : List Element} (h : List.Forall₂ Phrase.Element ts es) :
    quotedBodies ts = es.flatMap Element.literals := by
  induction h with
  | nil => rfl
  | @cons t e ts es he hs ih =>
    obtain ⟨l, place⟩ := t
    obtain ⟨kind, place'⟩ := e
    obtain ⟨hk : Phrase.Kind l kind, -⟩ := he
    rw [List.flatMap_cons, ← ih]
    cases hk with
    | literal => exact quotedBodies_quoted ..
    | _ => exact quotedBodies_cons (by simp)

/-- An alternative quotes the literals among its elements. -/
theorem quotedBodies_of_alternative {behind : Location} {a : Alternative}
    (h : Phrase.Alternative behind ts a) : quotedBodies ts = a.literals := by
  obtain @⟨ts, us, es, action, he, ha⟩ := h
  rw [quotedBodies_append, quotedBodies_of_action ha, List.append_nil]
  cases he with
  | empty hts =>
    induction ts with
    | nil => rfl
    | cons t ts ih =>
      obtain ⟨ht, hts⟩ := List.forall_mem_cons.1 hts
      rw [quotedBodies_cons (by simp [ht]), ih hts]
      rfl
  | elements hs => exact quotedBodies_of_element hs

theorem quotedBodies_of_alternatives {behind : Location} {as : List Alternative}
    (h : Phrase.Alternatives behind ts as) : quotedBodies ts = as.flatMap Alternative.literals := by
  induction h with
  | single h => simpa using quotedBodies_of_alternative h
  | bar h hs ih =>
    rw [quotedBodies_append, quotedBodies_of_alternative h, quotedBodies_cons (by simp), ih,
      List.flatMap_cons]

/-- **What a text quotes are the literals of its definitions.** -/
theorem quotedBodies_of_definitions {finish : Location} {ds : List Definition}
    (h : Phrase.Definitions finish ts ds) :
    quotedBodies ts = ds.flatMap fun d => d.alternatives.flatMap Alternative.literals := by
  induction h with
  | nil => rfl
  | semicolon h ih => rw [quotedBodies_cons (by simp), ih]
  | definition h hs ih =>
    obtain ⟨h⟩ := h
    rw [quotedBodies_append, quotedBodies_cons (by simp), quotedBodies_cons (by simp),
      quotedBodies_of_alternatives h, ih, List.flatMap_cons]

/-! ## What rules and definitions share -/

/-- What does not depend on places is the same where the outlines are. -/
theorem flatMap_eq_of_outline {α : Type} {f : Alternative → List α}
    (hf : ∀ a, f a.unplaced = f a) {ds : List Definition} {rules : List Rule}
    (h : ds.map Definition.outline = rules.map Rule.outline) :
    (ds.flatMap fun d => d.alternatives.flatMap f) =
      rules.flatMap fun rule => rule.alternatives.flatMap f := by
  have hmap := congrArg (List.flatMap fun p => p.2.flatMap f) h
  simpa [List.flatMap_map, Definition.outline, Rule.outline, hf] using hmap

variable {r : Registry} {ds : List Definition} {rules : List Rule}

/-- The alternatives of a name are those of all its definitions. -/
theorem mem_alternativesOf {name : String} {a : Alternative} :
    a ∈ alternativesOf ds name ↔ ∃ d ∈ ds, d.name = name ∧ a ∈ d.alternatives := by
  simp [alternativesOf, and_assoc]

/-- The alternatives of the rules are those of the definitions. -/
theorem Collects.exists_alternative_iff (h : Collects r ds rules) {a : Alternative} :
    (∃ rule ∈ rules, a ∈ rule.alternatives) ↔ ∃ d ∈ ds, a ∈ d.alternatives := by
  constructor
  · rintro ⟨rule, hrule, ha⟩
    rw [h.alternatives rule hrule] at ha
    obtain ⟨d, hd, -, ha⟩ := mem_alternativesOf.1 ha
    exact ⟨d, hd, ha⟩
  · rintro ⟨d, hd, ha⟩
    obtain ⟨rule, hrule, hname⟩ := h.mem_names_iff.1 (List.mem_map_of_mem hd)
    refine ⟨rule, hrule, ?_⟩
    rw [h.alternatives rule hrule]
    exact mem_alternativesOf.2 ⟨d, hd, hname.symm, ha⟩

/-- What is collected from the alternatives is the same for rules and definitions. -/
theorem Collects.mem_flatMap_iff (h : Collects r ds rules) {α : Type} (f : Alternative → List α)
    {x : α} : (x ∈ rules.flatMap fun rule => rule.alternatives.flatMap f) ↔
      x ∈ ds.flatMap fun d => d.alternatives.flatMap f := by
  simp only [List.mem_flatMap]
  constructor
  · rintro ⟨rule, hrule, a, ha, hx⟩
    obtain ⟨d, hd, ha⟩ := h.exists_alternative_iff.1 ⟨rule, hrule, ha⟩
    exact ⟨d, hd, a, ha, hx⟩
  · rintro ⟨d, hd, a, ha, hx⟩
    obtain ⟨rule, hrule, ha⟩ := h.exists_alternative_iff.2 ⟨d, hd, ha⟩
    exact ⟨rule, hrule, a, ha, hx⟩

/-- The rules of definitions that can be printed can be printed. -/
theorem Collects.printable (h : Collects r ds rules)
    (hds : ∀ d ∈ ds, Printable d.name d.alternatives) :
    ∀ rule ∈ rules, Printable rule.name rule.alternatives := by
  intro rule hrule
  obtain ⟨d, hd, hname⟩ := List.mem_map.1 (h.mem_names_iff.2 ⟨rule, hrule, rfl⟩)
  have halternatives := h.alternatives rule hrule
  refine ⟨hname ▸ (hds d hd).name, fun hnil => ?_, fun a ha => ?_⟩
  · obtain ⟨a, ha⟩ := List.exists_mem_of_ne_nil _ (hds d hd).ne_nil
    have hmem : a ∈ rule.alternatives := halternatives ▸ mem_alternativesOf.2 ⟨d, hd, hname, ha⟩
    rw [hnil] at hmem
    cases hmem
  · obtain ⟨d', hd', ha⟩ := h.exists_alternative_iff.1 ⟨rule, hrule, ha⟩
    exact (hds d' hd').alternatives a ha

/-- A name that is defined once has the alternatives of that definition. -/
theorem alternativesOf_of_nodup {d : Definition} (h : (ds.map (·.name)).Nodup) (hd : d ∈ ds) :
    alternativesOf ds d.name = d.alternatives := by
  induction ds with
  | nil => cases hd
  | cons d' ds ih =>
    obtain ⟨hnew, hnodup⟩ := List.nodup_cons.1 h
    rcases List.mem_cons.1 hd with rfl | hd
    · have hrest : ds.filter (·.name == d.name) = [] := List.filter_eq_nil_iff.2 fun d' hd' => by
        simpa using fun heq : d'.name = d.name => hnew (List.mem_map.2 ⟨d', hd', heq⟩)
      simp [alternativesOf, hrest]
    · have hne : d'.name ≠ d.name := fun heq => hnew (List.mem_map.2 ⟨d, hd, heq.symm⟩)
      rw [← ih hnodup hd, alternativesOf, List.filter_cons_of_neg (by simpa using hne),
        alternativesOf]

/-- Definitions of different names make one rule each. -/
theorem Collects.outline_eq (h : Collects r ds rules) (hnodup : (ds.map (·.name)).Nodup) :
    rules.map Rule.outline = ds.map Definition.outline := by
  let gathered (name : String) : String × List Alternative :=
    (name, (alternativesOf ds name).map Alternative.unplaced)
  calc rules.map Rule.outline
      = rules.map (gathered ∘ (·.name)) := List.map_congr_left fun rule hrule =>
        congrArg (fun as => (rule.name, as.map Alternative.unplaced)) (h.alternatives rule hrule)
    _ = (rules.map (·.name)).map gathered := List.map_map.symm
    _ = (ds.map (·.name)).map gathered := by rw [h.names, Distinct.eraseDups_of_nodup hnodup]
    _ = ds.map (gathered ∘ (·.name)) := List.map_map
    _ = ds.map Definition.outline := List.map_congr_left fun d hd =>
        congrArg (fun as => (d.name, as.map Alternative.unplaced))
          (alternativesOf_of_nodup hnodup hd)

/-! ## Printed grammars -/

variable {g : Grammar}

/-- The name of the start symbol is that of the first rule. -/
theorem Gathers.name?_start (h : Gathers r ds g) : ∃ name, r.name? g.start = some name ∧
    (g.rules.map Rule.outline).head?.map Prod.fst = some name := by
  obtain ⟨rule, hrule, hlhs⟩ := Option.map_eq_some_iff.1 h.start
  refine ⟨rule.name, hlhs ▸ h.rules.lhs rule (List.mem_of_mem_head? hrule), ?_⟩
  rw [List.head?_map, hrule]
  rfl

/-- The keywords are the lexemes of the rules. -/
theorem Gathers.mem_keywords_iff (h : Gathers r ds g) {lexeme : String} :
    lexeme ∈ g.keywords ↔ lexeme ∈ g.rules.flatMap fun rule =>
      rule.alternatives.flatMap fun a => a.elements.flatMap Element.lexemes := by
  rw [h.keywords, List.mem_eraseDups, h.rules.mem_flatMap_iff]
  rfl

theorem render_outline (rule : Rule) :
    Rule.render ⟨0, rule.outline.1, rule.outline.2, .start⟩ = rule.render := by
  have halternatives :
      rule.outline.2.map Alternative.render = rule.alternatives.map Alternative.render := by
    simp [Rule.outline, render_unplaced]
  rw [Rule.render, halternatives]
  rfl

/-- A grammar is printed without its places and symbols. -/
theorem render_eq_of_outline {g' : Grammar}
    (h : g.rules.map Rule.outline = g'.rules.map Rule.outline) : g.render = g'.render := by
  have hrender (g : Grammar) : g.rules.map Rule.render =
      (g.rules.map Rule.outline).map fun p => Rule.render ⟨0, p.1, p.2, .start⟩ := by
    simp [render_outline]
  rw [render, render, hrender, hrender, h]

/-- What is read from a text are rules under the names of their symbols, and they can be printed. -/
theorem printable_of_parse {source : String} {r' : Registry}
    (h : (parse source).runOn r = (.ok g, r')) : (∃ ds, Gathers r' ds g) ∧
      ∀ rule ∈ g.rules, Printable rule.name rule.alternatives := by
  obtain ⟨ts, finish, ds, start, symbols, hscan, hds, hregister, rfl⟩ := parse_eq_ok_iff.1 h
  have hgathers := gathers_ofDefinitions
    (by simpa only [List.forall₂_map_right_iff] using forall₂_of_registerAll hregister)
  exact ⟨⟨ds, hgathers⟩, hgathers.rules.printable (hds.printable (proper_of_scanFrom hscan))⟩

/-- **A printed grammar is read as the same grammar**: with the registry that its text was read
with, its print is read as a grammar with the same start name, the same names and alternatives in
the same order, and the same keywords, whose print is the same again. -/
theorem parse_render {source : String} {r' : Registry} (hr : r.Fresh)
    (h : (parse source).runOn r = (.ok g, r')) :
    ∃ g' r'', (parse g.render).runOn r = (.ok g', r'') ∧
      (∃ name, r'.name? g.start = some name ∧ r''.name? g'.start = some name) ∧
      g'.rules.map Rule.outline = g.rules.map Rule.outline ∧
      (∀ lexeme, lexeme ∈ g'.keywords ↔ lexeme ∈ g.keywords) ∧ g'.render = g.render := by
  obtain ⟨ts, finish, ds, hscan, hds, hregistrable, hgathers⟩ := exists_of_parse hr h
  have hprintable : ∀ rule ∈ g.rules, Printable rule.name rule.alternatives :=
    hgathers.rules.printable (hds.definitions.printable (proper_of_scanFrom hscan))
  obtain ⟨ts', finish', hscan', hvalues⟩ := (spelling_render hprintable).exists_scanFrom .start
  obtain ⟨ds', hds', houtline⟩ := exists_definitions finish' hvalues hprintable
  -- the print quotes and defines what the text does
  have hquoted (l : String) : l ∈ quotedBodies ts' ↔ l ∈ quotedBodies ts := by
    rw [quotedBodies_of_definitions hds', quotedBodies_of_definitions hds.definitions,
      flatMap_eq_of_outline literals_unplaced houtline, hgathers.rules.mem_flatMap_iff]
  have hnames : ds'.map (·.name) = (ds.map (·.name)).eraseDups := by
    rw [← hgathers.rules.names]
    simpa [Definition.outline, Rule.outline, Function.comp_def] using
      congrArg (List.map Prod.fst) houtline
  have hdefined (name : String) : name ∈ ds'.map (·.name) ↔ name ∈ ds.map (·.name) := by
    rw [hnames, List.mem_eraseDups]
  have hne : ds' ≠ [] := by
    rintro rfl
    obtain ⟨d, hd⟩ := List.exists_mem_of_ne_nil _ hds.ne_nil
    cases (hdefined d.name).2 (List.mem_map_of_mem hd)
  obtain ⟨g', r'', h'⟩ := succeeds_parse hr hscan' ⟨hds', hne⟩ (hregistrable.congr hquoted hdefined)
  -- it has no other reading
  obtain ⟨_, _, ds'', hscan'', hds'', -, hgathers'⟩ := exists_of_parse hr h'
  obtain ⟨rfl, rfl⟩ := Prod.mk.inj (Except.ok.inj (hscan'.symm.trans hscan''))
  obtain rfl := hds''.definitions.unique hds'
  have hsame : g'.rules.map Rule.outline = g.rules.map Rule.outline :=
    (hgathers'.rules.outline_eq (hnames ▸ Distinct.nodup_eraseDups _)).trans houtline
  refine ⟨g', r'', h', ?_, hsame, fun lexeme => ?_, render_eq_of_outline hsame⟩
  · obtain ⟨name, hname, hfirst⟩ := hgathers.name?_start
    obtain ⟨name', hname', hfirst'⟩ := hgathers'.name?_start
    rw [hsame] at hfirst'
    exact ⟨name, hname, Option.some.inj (hfirst'.symm.trans hfirst) ▸ hname'⟩
  · rw [hgathers'.keywords, List.mem_eraseDups, hgathers.mem_keywords_iff,
      ← flatMap_eq_of_outline lexemes_unplaced houtline]
    rfl

/-- Single quotes, brackets and number signs in lexemes, an empty alternative with an action, empty
braces, and a rule of two definitions. -/
theorem parse_render_quotes : ∃ (source : String) (g g' : Grammar) (r' r'' : Registry),
    source = "a = \"'\" '#' [[#'] {op 0 02} | {} b = EPSILON {1} ;; a = b 'if' b" ∧
    Registry.standard.Fresh ∧ (parse source).runOn .standard = (.ok g, r') ∧
    g.render = "a = \"'\" '#' [[#'] { op 0 2 }\n    | EPSILON\n    | b 'if' b\n    ;\n" ++
      "b = EPSILON { 1 }\n    ;\n" ∧
    (parse g.render).runOn .standard = (.ok g', r'') ∧
    (∃ name, r'.name? g.start = some name ∧ r''.name? g'.start = some name) ∧
    g'.rules.map Rule.outline = g.rules.map Rule.outline ∧
    (∀ lexeme, lexeme ∈ g'.keywords ↔ lexeme ∈ g.keywords) ∧ g'.render = g.render := by
  let source := "a = \"'\" '#' [[#'] {op 0 02} | {} b = EPSILON {1} ;; a = b 'if' b"
  have hok : (match (parse source).runOn .standard with
      | (.ok g, _) => decide (g.render =
        "a = \"'\" '#' [[#'] { op 0 2 }\n    | EPSILON\n    | b 'if' b\n    ;\n" ++
          "b = EPSILON { 1 }\n    ;\n")
      | _ => false) = true := by decide +kernel
  split at hok
  · next g r' h =>
    obtain ⟨g', r'', h', hsame⟩ := parse_render .standard h
    exact ⟨source, g, g', r', r'', rfl, .standard, h, of_decide_eq_true hok, h', hsame⟩
  · exact nomatch hok

end ShiftReduce.Grammar

import ShiftReduce.Proofs.Capacity
import ShiftReduce.Proofs.Literals

/-!
# Proofs/Flattening — the rules that a grammar is flattened into

An alternative is expanded into one rule for every way to choose a symbol for each of its elements.
A choice is known by the positions of the chosen symbols (`Picks`), and the rules of an alternative
are in the lexicographic order of these positions, each choice once (`Enumerates`).  So the rules
of a grammar are known one by one (`Flattened`), and a grammar that is not flattened has something
wrong with it (`Hindered`).
-/

namespace ShiftReduce.Grammar

open Registering

/-! ## Choices -/

/-- The symbols at some positions, one in each list. -/
inductive Picks : List (List SymbolId) → List Nat → List SymbolId → Prop
  | nil : Picks [] [] []
  | cons {xs : List SymbolId} {lists : List (List SymbolId)} {p : Nat} {ps : List Nat}
      {x : SymbolId} {rhs : List SymbolId} (hx : xs[p]? = some x) (h : Picks lists ps rhs) :
      Picks (xs :: lists) (p :: ps) (x :: rhs)

/-- Every way to choose a symbol of each list, each once, in the lexicographic order of the
positions. -/
def Enumerates (lists rhss : List (List SymbolId)) : Prop :=
  ∃ positions : List (List Nat), positions.Pairwise (· < ·) ∧
    (∀ ps, ps ∈ positions ↔ ∃ rhs, Picks lists ps rhs) ∧ List.Forall₂ (Picks lists) positions rhss

/-- The positions at which lists have symbols; the first position varies slowest. -/
def positionsIn : List (List SymbolId) → List (List Nat)
  | [] => [[]]
  | xs :: lists => (List.range xs.length).flatMap fun p => (positionsIn lists).map (p :: ·)

/-- The positions that are gone through are those of the right-hand sides. -/
theorem mem_positionsIn {lists : List (List SymbolId)} {ps : List Nat} :
    ps ∈ positionsIn lists ↔ ∃ rhs, Picks lists ps rhs := by
  constructor
  · intro h
    induction lists generalizing ps with
    | nil =>
      obtain rfl := List.mem_singleton.1 h
      exact ⟨[], .nil⟩
    | cons xs lists ih =>
      obtain ⟨p, hp, h⟩ := List.mem_flatMap.1 h
      obtain ⟨ps, hps, rfl⟩ := List.mem_map.1 h
      obtain ⟨rhs, hrhs⟩ := ih hps
      exact ⟨_, .cons (List.getElem?_eq_getElem (List.mem_range.1 hp)) hrhs⟩
  · rintro ⟨rhs, h⟩
    induction h with
    | nil => exact List.mem_singleton_self []
    | cons hx _ ih =>
      have hp := (List.getElem?_eq_some_iff.1 hx).1
      exact List.mem_flatMap.2 ⟨_, List.mem_range.2 hp, List.mem_map_of_mem ih⟩

/-- They are gone through in lexicographic order. -/
theorem pairwise_positionsIn (lists : List (List SymbolId)) :
    (positionsIn lists).Pairwise (· < ·) := by
  induction lists with
  | nil => exact List.pairwise_singleton _ _
  | cons xs lists ih =>
    refine List.pairwise_flatMap.2 ⟨fun p _ => ?_, List.pairwise_lt_range.imp fun hlt => ?_⟩
    · exact ih.map _ fun ps ps' h => List.cons_lt_cons_iff.2 (.inr ⟨rfl, h⟩)
    · simp only [List.forall_mem_map]
      exact fun ps _ ps' _ => List.cons_lt_cons_iff.2 (.inl hlt)

/-- Each right-hand side is picked at the positions in its place. -/
theorem forall₂_picks (lists : List (List SymbolId)) :
    List.Forall₂ (Picks lists) (positionsIn lists) (choices lists) := by
  induction lists with
  | nil => exact .cons .nil .nil
  | cons xs lists ih =>
    have hrange : List.Forall₂ (fun p x => xs[p]? = some x) (List.range xs.length) xs :=
      List.forall₂_iff_get.2 ⟨List.length_range, fun p _ hp => by simp [hp]⟩
    exact List.rel_flatMap hrange fun p x hx => List.rel_map (fun ps rhs h => .cons hx h) ih

/-- **The choices of some lists are all of them, in order.** -/
theorem enumerates_choices (lists : List (List SymbolId)) : Enumerates lists (choices lists) :=
  ⟨positionsIn lists, pairwise_positionsIn lists, fun _ => mem_positionsIn, forall₂_picks lists⟩

/-- Lists without repetitions yield no right-hand side twice. -/
theorem nodup_choices {lists : List (List SymbolId)} (h : ∀ xs ∈ lists, xs.Nodup) :
    (choices lists).Nodup := by
  induction lists with
  | nil => exact List.nodup_singleton _
  | cons xs lists ih =>
    obtain ⟨hxs, hlists⟩ := List.forall_mem_cons.1 h
    refine List.nodup_flatMap.2 ⟨fun x _ => (ih hlists).map fun _ _ h => (List.cons.inj h).2, ?_⟩
    refine hxs.imp fun hne => ?_
    simp only [Function.onFun, List.disjoint_left, List.mem_map]
    rintro _ ⟨ys, -, rfl⟩ ⟨ys', -, heq⟩
    exact hne (List.cons.inj heq).1.symm

/-! ## Elements -/

variable {g : Grammar} {symbols : Registry} {limits : Limits}

/-- The symbols of an element: the left-hand side of the rule that it refers to, or the terminals of
its names. -/
inductive Element.Resolves (g : Grammar) (symbols : Registry) : Element → List SymbolId → Prop
  | reference {name : String} {location : Location} {x : SymbolId}
      (hname : symbols.symbol? name = some x) (hrule : ∃ rule ∈ g.rules, rule.lhs = x) :
      Resolves g symbols ⟨.reference name, location⟩ [x]
  | tokenClass {name : String} {location : Location} {x : SymbolId}
      (h : symbols.terminal? name = some x) : Resolves g symbols ⟨.tokenClass name, location⟩ [x]
  | literal {lexeme : String} {location : Location} {x : SymbolId}
      (h : symbols.terminal? lexeme = some x) : Resolves g symbols ⟨.literal lexeme, location⟩ [x]
  | charClass {body : String} {members : List String} {location : Location} {xs : List SymbolId}
      (h : List.Forall₂ (fun name x => symbols.terminal? name = some x) members xs) :
      Resolves g symbols ⟨.charClass body members, location⟩ xs

/-- A name refers to a rule if one rewrites its symbol. -/
theorem filter_isSome_rule?_eq_some_iff {name : String} {x : SymbolId} :
    ((symbols.symbol? name).filter fun x => (g.rule? x).isSome) = some x ↔
      symbols.symbol? name = some x ∧ ∃ rule ∈ g.rules, rule.lhs = x := by
  simp [Option.filter_eq_some_iff, rule?]

/-- An element resolves to the symbols that it matches. -/
theorem Element.resolves_of_symbols? {e : Element} {xs : List SymbolId}
    (h : e.symbols? g symbols = .ok xs) : e.Resolves g symbols xs := by
  obtain ⟨kind, location⟩ := e
  cases kind with
  | reference name =>
    simp only [symbols?] at h
    split at h
    · next x hx =>
      obtain rfl := Except.ok.inj h
      obtain ⟨hname, hrule⟩ := filter_isSome_rule?_eq_some_iff.1 hx
      exact .reference hname hrule
    · cases h
  | tokenClass name =>
    obtain ⟨x, hx, rfl⟩ := Except.exists_of_map_eq_ok h
    exact .tokenClass (terminal?_of_terminalOf hx)
  | literal lexeme =>
    obtain ⟨x, hx, rfl⟩ := Except.exists_of_map_eq_ok h
    exact .literal (terminal?_of_terminalOf hx)
  | charClass body members =>
    exact .charClass ((Except.forall₂_of_mapM h).imp fun name x => terminal?_of_terminalOf)

/-- An element that stands for no symbol, and the error that says so. -/
inductive Element.Unresolved (g : Grammar) (symbols : Registry) (e : Element) : Error → Prop
  | terminal {name : String} (hname : name ∈ e.terminals) (h : symbols.terminal? name = none) :
      Unresolved g symbols e (.undefinedTerminal name e.location)
  | nonterminal {name : String} (hkind : e.kind = .reference name)
      (h : ∀ x, symbols.symbol? name = some x → ∀ rule ∈ g.rules, rule.lhs ≠ x) :
      Unresolved g symbols e (.undefinedNonterminal name e.location)

theorem of_terminalOf_error {location : Location} {name : String} {error : Error}
    (h : terminalOf symbols location name = .error error) :
    symbols.terminal? name = none ∧ error = .undefinedTerminal name location := by
  unfold terminalOf at h
  split at h
  · exact nomatch h
  · next hnone => exact ⟨hnone, (Except.error.inj h).symm⟩

/-- If it matches nothing, its error says what is missing. -/
theorem Element.unresolved_of_symbols? {e : Element} {error : Error}
    (h : e.symbols? g symbols = .error error) : e.Unresolved g symbols error := by
  obtain ⟨kind, location⟩ := e
  have one {name : String} (hname : name ∈ (⟨kind, location⟩ : Element).terminals)
      (h : (terminalOf symbols location name).map ([·]) = .error error) :
      (⟨kind, location⟩ : Element).Unresolved g symbols error := by
    cases hterminal : terminalOf symbols location name with
    | ok x =>
      rw [hterminal] at h
      cases h
    | error error' =>
      rw [hterminal] at h
      obtain rfl := Except.error.inj h
      obtain ⟨hnone, rfl⟩ := of_terminalOf_error hterminal
      exact .terminal hname hnone
  cases kind with
  | reference name =>
    simp only [symbols?] at h
    split at h
    · cases h
    · next hnone =>
      obtain rfl := Except.error.inj h
      refine .nonterminal rfl fun x hx rule hrule hlhs => ?_
      have hsome := filter_isSome_rule?_eq_some_iff.2 ⟨hx, rule, hrule, hlhs⟩
      cases hnone.symm.trans hsome
  | tokenClass name => exact one (List.mem_singleton_self name) h
  | literal lexeme => exact one (List.mem_singleton_self lexeme) h
  | charClass body members =>
    obtain ⟨name, hname, h⟩ := Except.exists_of_mapM_eq_error h
    obtain ⟨hnone, rfl⟩ := of_terminalOf_error h
    exact .terminal hname hnone

/-! ## Actions -/

/-- The constructor that a written action names, if any. -/
def WrittenAction.Names (w : WrittenAction) (kind : Option Action.Kind) : Prop :=
  w.name.map Action.Kind.ofName? = kind.map some

/-- The action of an alternative: forwarding if none is written, else a written one of a known name
and a proper number of positions, all of which are there. -/
inductive Alternative.Has (a : Alternative) : Action → Prop
  | forward (h : a.action = none) : Has a .forward
  | written {w : WrittenAction} {kind : Option Action.Kind} (h : a.action = some w)
      (hname : w.Names kind) (harity : (writtenArity kind).contains w.indexes.length = true)
      (hlt : ∀ i ∈ w.indexes, i < a.elements.length) : Has a ⟨kind, w.indexes⟩

/-- What is wrong with a written action of an alternative of `size` elements. -/
inductive WrittenAction.Wrong (w : WrittenAction) (size : Nat) : ActionProblem → Prop
  | unknownName {name : String} (h : w.name = some name)
      (hnone : Action.Kind.ofName? name = none) : Wrong w size (.unknownName name)
  | arity {kind : Option Action.Kind} (hname : w.Names kind)
      (h : ¬ (writtenArity kind).contains w.indexes.length = true) :
      Wrong w size (.arity kind (writtenArity kind) w.indexes.length)
  | indexOutOfRange {index : Nat} (h : index ∈ w.indexes) (hle : size ≤ index) :
      Wrong w size (.indexOutOfRange index size)

theorem WrittenAction.names_of_kind? {w : WrittenAction} {kind : Option Action.Kind}
    (h : w.kind? = .ok kind) : w.Names kind := by
  unfold Names
  unfold kind? at h
  split at h
  · next hnone =>
    obtain rfl := Except.ok.inj h
    rw [hnone]
    rfl
  · next name hname =>
    split at h
    · next kind' hkind =>
      obtain rfl := Except.ok.inj h
      rw [hname]
      exact congrArg some hkind
    · exact nomatch h

/-- A written action that passes its check keeps its indexes, and has as many as it needs. -/
theorem WrittenAction.of_check {w : WrittenAction} {size : Nat} {action : Action}
    (h : w.check size = .ok action) : w.Names action.kind ∧ action.indexes = w.indexes ∧
      (writtenArity action.kind).contains w.indexes.length = true ∧ ∀ i ∈ w.indexes, i < size := by
  unfold check at h
  split at h
  · exact nomatch h
  next kind hkind =>
  split at h
  · exact nomatch h
  next harity =>
  split at h
  · exact nomatch h
  next hfind =>
  obtain rfl := Except.ok.inj h
  exact ⟨names_of_kind? hkind, rfl, by simpa using harity,
    fun i hi => by simpa using List.find?_eq_none.1 hfind i hi⟩

/-- One that does not is wrong in the way that its problem says. -/
theorem WrittenAction.wrong_of_check {w : WrittenAction} {size : Nat} {problem : ActionProblem}
    (h : w.check size = .error problem) : w.Wrong size problem := by
  unfold check at h
  split at h
  · next e hkind =>
    obtain rfl := Except.error.inj h
    unfold kind? at hkind
    split at hkind
    · exact nomatch hkind
    next name hname =>
    split at hkind
    · exact nomatch hkind
    next hnone =>
    obtain rfl := Except.error.inj hkind
    exact .unknownName hname hnone
  next kind hkind =>
  split at h
  · next harity =>
    obtain rfl := Except.error.inj h
    exact .arity (names_of_kind? hkind) (by simpa using harity)
  split at h
  · next index hfind =>
    obtain rfl := Except.error.inj h
    exact .indexOutOfRange (List.mem_of_find?_eq_some hfind) (by simpa using List.find?_some hfind)
  · exact nomatch h

theorem Alternative.has_of_action? {a : Alternative} {action : Action}
    (h : a.action? = .ok action) : a.Has action := by
  unfold action? at h
  split at h
  · next hnone =>
    obtain rfl := Except.ok.inj h
    exact .forward hnone
  · next w hw =>
    obtain ⟨hname, hindexes, harity, hlt⟩ := WrittenAction.of_check (Except.eq_ok_of_mapError h)
    obtain ⟨kind, indexes⟩ := action
    obtain rfl : indexes = w.indexes := hindexes
    exact .written hw hname harity hlt

theorem Alternative.wrong_of_action? {a : Alternative} {e : Error} (h : a.action? = .error e) :
    ∃ w problem, a.action = some w ∧ w.Wrong a.elements.length problem ∧
      e = .invalidAction problem w.location := by
  unfold action? at h
  split at h
  · exact nomatch h
  · next w hw =>
    obtain ⟨problem, hproblem, rfl⟩ := Except.exists_of_mapError_eq_error h
    exact ⟨w, problem, hw, WrittenAction.wrong_of_check hproblem, rfl⟩

/-- The positions of an action are as many as its name takes, and are all there. -/
theorem Alternative.Has.proper {a : Alternative} {action : Action} (h : a.Has action) :
    (writtenArity action.kind).contains action.indexes.length = true ∧
      ∀ i ∈ action.indexes, i < a.elements.length := by
  cases h with
  | forward => exact ⟨rfl, nofun⟩
  | written _ _ harity hlt => exact ⟨harity, hlt⟩

/-! ## Alternatives -/

/-- The alternatives of a grammar with their left-hand sides, in order. -/
def forms (g : Grammar) : List (SymbolId × Alternative) :=
  g.rules.flatMap fun rule => rule.alternatives.map (rule.lhs, ·)

/-- The rules of an alternative: one for each choice of symbols for its elements, in order, with the
alternative's action. -/
inductive Expands (g : Grammar) (symbols : Registry) :
    SymbolId × Alternative → List ShiftReduce.Rule → Prop
  | mk {lhs : SymbolId} {a : Alternative} {action : Action} {lists rhss : List (List SymbolId)}
      (haction : a.Has action)
      (hlists : List.Forall₂ (Element.Resolves g symbols) a.elements lists)
      (hrhss : Enumerates lists rhss) (hnodup : rhss.Nodup) :
      Expands g symbols (lhs, a) (rhss.map fun rhs => ⟨⟨lhs, rhs⟩, action⟩)

/-- The rules of a grammar are made alternative by alternative. -/
theorem foldlM_rules_eq_foldlM_forms (init : Array ShiftReduce.Rule) :
    g.rules.foldlM (fun rules rule =>
        rule.alternatives.foldlM (addAlternative g symbols limits rule.lhs) rules) init =
      g.forms.foldlM (fun rules form => addAlternative g symbols limits form.1 rules form.2)
        init := by
  unfold forms
  induction g.rules generalizing init with
  | nil => rfl
  | cons rule rules ih =>
    rw [List.foldlM_cons, List.flatMap_cons, List.foldlM_append, List.foldlM_map]
    exact congrArg _ (funext ih)

/-- An element that matches no lexeme twice. -/
def Element.Distinct (e : Element) : Prop :=
  ∀ body members, e.kind = .charClass body members → members.Nodup

/-- Distinct members are distinct symbols. -/
theorem Element.Resolves.nodup {e : Element} {xs : List SymbolId} (h : e.Resolves g symbols xs)
    (hd : e.Distinct) : xs.Nodup := by
  cases h with
  | reference | tokenClass | literal => exact List.nodup_singleton _
  | charClass h =>
    have hunique : Relator.BiUnique fun name x => symbols.terminal? name = some x :=
      ⟨fun _ _ _ => eq_of_terminal?_eq, fun _ _ _ h h' => Option.some.inj (h.symm.trans h')⟩
    exact (List.rel_nodup hunique h).1 (hd _ _ rfl)

theorem Element.Resolves.ne_nil {e : Element} {xs : List SymbolId} (h : e.Resolves g symbols xs)
    (hs : e.Stocked) : xs ≠ [] := by
  cases h with
  | reference | tokenClass | literal => exact List.cons_ne_nil _ _
  | charClass h =>
    rintro rfl
    exact hs _ _ rfl (List.forall₂_nil_right_iff.1 h)

theorem exists_of_forall₂_right {α β : Type} {R : α → β → Prop} {as : List α} {bs : List β}
    (h : List.Forall₂ R as bs) {b : β} (hb : b ∈ bs) : ∃ a ∈ as, R a b := by
  induction h with
  | nil => exact nomatch hb
  | cons hab _ ih =>
    rcases List.mem_cons.1 hb with rfl | hb
    · exact ⟨_, List.mem_cons_self, hab⟩
    · obtain ⟨a, ha, hab⟩ := ih hb
      exact ⟨a, List.mem_cons_of_mem _ ha, hab⟩

theorem exists_of_forall₂_left {α β : Type} {R : α → β → Prop} {as : List α} {bs : List β}
    (h : List.Forall₂ R as bs) {a : α} (ha : a ∈ as) : ∃ b ∈ bs, R a b :=
  exists_of_forall₂_right (R := flip R) h.flip ha

theorem Picks.length_eq {lists : List (List SymbolId)} {ps : List Nat} {rhs : List SymbolId}
    (h : Picks lists ps rhs) : rhs.length = lists.length := by
  induction h with
  | nil => rfl
  | cons _ _ ih => exact congrArg Nat.succ ih

/-- The first symbols of some lists are a choice. -/
theorem exists_picks {lists : List (List SymbolId)} (h : ∀ xs ∈ lists, xs ≠ []) :
    ∃ ps rhs, Picks lists ps rhs := by
  induction lists with
  | nil => exact ⟨[], [], .nil⟩
  | cons xs lists ih =>
    obtain ⟨hxs, hlists⟩ := List.forall_mem_cons.1 h
    obtain ⟨x, xs, rfl⟩ := List.exists_cons_of_ne_nil hxs
    obtain ⟨ps, rhs, hpicks⟩ := ih hlists
    exact ⟨0 :: ps, x :: rhs, .cons rfl hpicks⟩

variable {form : SymbolId × Alternative} {block : List ShiftReduce.Rule}
  {rules rules' : Array ShiftReduce.Rule} {lhs : SymbolId} {a : Alternative} {e : Error}

/-- The rules of an alternative have its left-hand side and a proper action. -/
theorem Expands.of_mem (h : Expands g symbols form block) {rule : ShiftReduce.Rule}
    (hrule : rule ∈ block) : rule.lhs = form.1 ∧
      (writtenArity rule.action.kind).contains rule.action.indexes.length = true ∧
      ∀ i ∈ rule.action.indexes, i < rule.rhs.length := by
  cases h with
  | mk haction hlists hrhss =>
    obtain ⟨rhs, hrhs, rfl⟩ := List.mem_map.1 hrule
    obtain ⟨positions, -, -, hpicks⟩ := hrhss
    obtain ⟨ps, -, hpicks⟩ := exists_of_forall₂_right hpicks hrhs
    obtain ⟨harity, hlt⟩ := haction.proper
    exact ⟨rfl, harity, by rwa [hpicks.length_eq, ← hlists.length_eq]⟩

/-- An alternative whose elements all match something has a rule. -/
theorem Expands.ne_nil (h : Expands g symbols form block)
    (hs : ∀ e ∈ form.2.elements, e.Stocked) : block ≠ [] := by
  cases h with
  | mk haction hlists hrhss =>
    obtain ⟨positions, -, hpositions, hpicks⟩ := hrhss
    obtain ⟨ps, rhs, h⟩ := exists_picks fun xs hxs => by
      obtain ⟨e, he, hresolves⟩ := exists_of_forall₂_right hlists hxs
      exact hresolves.ne_nil (hs e he)
    obtain ⟨rhs', hrhs', -⟩ := exists_of_forall₂_left hpicks ((hpositions ps).2 ⟨rhs, h⟩)
    exact List.ne_nil_of_mem (List.mem_map_of_mem hrhs')

/-- The rules of some alternatives have proper actions. -/
theorem proper_of_mem_flatten {forms : List (SymbolId × Alternative)}
    {blocks : List (List ShiftReduce.Rule)} (h : List.Forall₂ (Expands g symbols) forms blocks)
    {rule : ShiftReduce.Rule} (hrule : rule ∈ blocks.flatten) :
    (writtenArity rule.action.kind).contains rule.action.indexes.length = true ∧
      ∀ i ∈ rule.action.indexes, i < rule.rhs.length := by
  obtain ⟨block, hblock, hrule⟩ := List.mem_flatten.1 hrule
  obtain ⟨form, -, hexpands⟩ := exists_of_forall₂_right h hblock
  exact (hexpands.of_mem hrule).2

/-- Among the rules of some alternatives there is one of each. -/
theorem exists_mem_flatten {forms : List (SymbolId × Alternative)}
    {blocks : List (List ShiftReduce.Rule)} (h : List.Forall₂ (Expands g symbols) forms blocks)
    (hform : form ∈ forms) (hs : ∀ e ∈ form.2.elements, e.Stocked) :
    ∃ rule ∈ blocks.flatten, rule.lhs = form.1 := by
  obtain ⟨block, hblock, hexpands⟩ := exists_of_forall₂_left h hform
  obtain ⟨rule, hrule⟩ := List.exists_mem_of_ne_nil _ (hexpands.ne_nil hs)
  exact ⟨rule, List.mem_flatten.2 ⟨block, hblock, hrule⟩, (hexpands.of_mem hrule).1⟩

/-- The choices for the elements of an alternative are its rules. -/
theorem expands_choices (hd : ∀ e ∈ a.elements, e.Distinct) {action : Action}
    (haction : a.action? = .ok action) {lists : List (List SymbolId)}
    (hlists : a.elements.mapM (Element.symbols? g symbols) = .ok lists) :
    Expands g symbols (lhs, a) ((choices lists).map fun rhs => ⟨⟨lhs, rhs⟩, action⟩) := by
  have hresolves : List.Forall₂ (Element.Resolves g symbols) a.elements lists :=
    (Except.forall₂_of_mapM hlists).imp fun _ _ => Element.resolves_of_symbols?
  refine .mk (Alternative.has_of_action? haction) hresolves (enumerates_choices lists)
    (nodup_choices fun xs hxs => ?_)
  obtain ⟨e, he, hxs⟩ := exists_of_forall₂_right hresolves hxs
  exact hxs.nodup (hd e he)

/-- An alternative adds the block of rules that it expands into. -/
theorem expands_of_addAlternative (hd : ∀ e ∈ a.elements, e.Distinct)
    (h : addAlternative g symbols limits lhs rules a = .ok rules') :
    ∃ block, Expands g symbols (lhs, a) block ∧ rules'.toList = rules.toList ++ block := by
  obtain ⟨action, haction, h⟩ := Except.bind_eq_ok h
  obtain ⟨lists, hlists, h⟩ := Except.bind_eq_ok h
  dsimp only at h
  split at h
  · exact nomatch h
  split at h
  · exact nomatch h
  obtain rfl := Except.ok.inj h
  exact ⟨_, expands_choices hd haction hlists, by rw [Array.toList_append, List.toList_toArray]⟩

/-- Why an alternative is not expanded. -/
theorem of_addAlternative_error (hd : ∀ e ∈ a.elements, e.Distinct)
    (h : addAlternative g symbols limits lhs rules a = .error e) :
    (∃ element ∈ a.elements, element.Unresolved g symbols e) ∨
    (∃ w problem, a.action = some w ∧ w.Wrong a.elements.length problem ∧
      e = .invalidAction problem w.location) ∨
    (limits.rightHandSide < a.elements.length ∧
      e = .tooMany .rightHandSide limits.rightHandSide) ∨
    ∃ block, Expands g symbols (lhs, a) block ∧ limits.rules < rules.size + block.length ∧
      e = .tooMany .rules limits.rules := by
  rcases Except.bind_eq_error h with haction | ⟨action, haction, h⟩
  · exact .inr (.inl (Alternative.wrong_of_action? haction))
  rcases Except.bind_eq_error h with hlists | ⟨lists, hlists, h⟩
  · obtain ⟨element, helement, hunresolved⟩ := Except.exists_of_mapM_eq_error hlists
    exact .inl ⟨element, helement, Element.unresolved_of_symbols? hunresolved⟩
  dsimp only at h
  split at h
  · next hlt =>
    rw [Except.length_of_mapM hlists] at hlt
    exact .inr (.inr (.inl ⟨hlt, (Except.error.inj h).symm⟩))
  split at h
  · next hlt =>
    refine .inr (.inr (.inr ⟨_, expands_choices hd haction hlists, ?_, (Except.error.inj h).symm⟩))
    rwa [List.length_map, length_choices]
  · exact nomatch h

/-! ## Grammars -/

/-- What keeps a grammar from being flattened. -/
inductive Hindered (g : Grammar) (symbols : Registry) (limits : Limits) : Error → Prop
  | unresolved {form : SymbolId × Alternative} {element : Element} {e : Error}
      (hform : form ∈ g.forms) (helement : element ∈ form.2.elements)
      (h : element.Unresolved g symbols e) : Hindered g symbols limits e
  | action {form : SymbolId × Alternative} {w : WrittenAction} {problem : ActionProblem}
      (hform : form ∈ g.forms) (hw : form.2.action = some w)
      (h : w.Wrong form.2.elements.length problem) :
      Hindered g symbols limits (.invalidAction problem w.location)
  | rightHandSide {form : SymbolId × Alternative} (hform : form ∈ g.forms)
      (h : limits.rightHandSide < form.2.elements.length) :
      Hindered g symbols limits (.tooMany .rightHandSide limits.rightHandSide)
  /-- The first alternatives have too many rules already. -/
  | rules {first : List (SymbolId × Alternative)} {blocks : List (List ShiftReduce.Rule)}
      (hfirst : first <+: g.forms) (hblocks : List.Forall₂ (Expands g symbols) first blocks)
      (h : limits.rules < 1 + blocks.flatten.length) :
      Hindered g symbols limits (.tooMany .rules limits.rules)
  | indexSpace {blocks : List (List ShiftReduce.Rule)}
      (hblocks : List.Forall₂ (Expands g symbols) g.forms blocks)
      (h : indexSpace < 1 + blocks.flatten.length) :
      Hindered g symbols limits (.tooMany .rules indexSpace)

/-- Alternatives add their blocks one behind the other. -/
theorem exists_blocks_of_foldlM {forms : List (SymbolId × Alternative)}
    (hd : ∀ form ∈ forms, ∀ e ∈ form.2.elements, e.Distinct)
    (h : forms.foldlM (fun rules form => addAlternative g symbols limits form.1 rules form.2)
      rules = .ok rules') :
    ∃ blocks, List.Forall₂ (Expands g symbols) forms blocks ∧
      rules'.toList = rules.toList ++ blocks.flatten := by
  induction forms generalizing rules with
  | nil =>
    obtain rfl : rules = rules' := Except.ok.inj h
    exact ⟨[], .nil, (List.append_nil _).symm⟩
  | cons form forms ih =>
    obtain ⟨hform, hforms⟩ := List.forall_mem_cons.1 hd
    obtain ⟨rules₁, h₁, h⟩ := Except.bind_eq_ok h
    obtain ⟨block, hblock, hlist⟩ := expands_of_addAlternative hform h₁
    obtain ⟨blocks, hblocks, hrest⟩ := ih hforms h
    exact ⟨block :: blocks, .cons hblock hblocks, by
      rw [hrest, hlist, List.flatten_cons, List.append_assoc]⟩

/-- What keeps the rest of a grammar from being flattened, the first alternatives being expanded. -/
theorem hindered_of_foldlM (hd : ∀ form ∈ g.forms, ∀ e ∈ form.2.elements, e.Distinct)
    {first rest : List (SymbolId × Alternative)} (hforms : g.forms = first ++ rest)
    {blocks : List (List ShiftReduce.Rule)}
    (hblocks : List.Forall₂ (Expands g symbols) first blocks)
    (hsize : rules.size = 1 + blocks.flatten.length)
    (h : rest.foldlM (fun rules form => addAlternative g symbols limits form.1 rules form.2) rules =
      .error e) : Hindered g symbols limits e := by
  induction rest generalizing first blocks rules with
  | nil => exact nomatch h
  | cons form rest ih =>
    have hform : form ∈ g.forms := hforms ▸ List.mem_append_right _ List.mem_cons_self
    have hstep : g.forms = first ++ [form] ++ rest := by simp [hforms]
    have hnext {block : List ShiftReduce.Rule} (hblock : Expands g symbols form block) :
        List.Forall₂ (Expands g symbols) (first ++ [form]) (blocks ++ [block]) ∧
          1 + (blocks ++ [block]).flatten.length = rules.size + block.length := by
      refine ⟨List.rel_append hblocks (.cons hblock .nil), ?_⟩
      simp [hsize, Nat.add_assoc]
    rcases Except.bind_eq_error h with h₁ | ⟨rules₁, h₁, h⟩
    · rcases of_addAlternative_error (hd form hform) h₁ with
        ⟨element, helement, hunresolved⟩ | ⟨w, problem, hw, hwrong, rfl⟩ | ⟨hlong, rfl⟩ |
        ⟨block, hblock, hmany, rfl⟩
      · exact .unresolved hform helement hunresolved
      · exact .action hform hw hwrong
      · exact .rightHandSide hform hlong
      · obtain ⟨hblocks, hlength⟩ := hnext hblock
        exact .rules (hstep ▸ List.prefix_append _ _) hblocks (hlength ▸ hmany)
    · obtain ⟨block, hblock, hlist⟩ := expands_of_addAlternative (hd form hform) h₁
      obtain ⟨hblocks, hlength⟩ := hnext hblock
      refine ih hstep hblocks ?_ h
      rw [hlength, ← Array.length_toList, hlist, List.length_append, Array.length_toList]

/-- What a grammar is flattened into: the augmented start rule, and the rules of its alternatives in
order. -/
structure Flattened (g : Grammar) (symbols : Registry) (limits : Limits) (accept : SymbolId)
    (rules : Array ShiftReduce.Rule) : Prop where
  name : symbols.name? accept = some augmentedStart
  expands : ∃ blocks, List.Forall₂ (Expands g symbols) g.forms blocks ∧
    rules.toList = ⟨⟨accept, [g.start]⟩, .forward⟩ :: blocks.flatten
  /-- `S'` is the left-hand side of the first rule alone. -/
  eq_start {r : RuleId} {rule : ShiftReduce.Rule} (hr : rules[r]? = some rule)
    (h : rule.lhs = accept) : r = RuleId.start
  accept_not_mem {rule : ShiftReduce.Rule} (h : rule ∈ rules) : accept ∉ rule.rhs
  /-- An action has as many positions as it takes, and all of them are on the right-hand side. -/
  proper {rule : ShiftReduce.Rule} (h : rule ∈ rules) :
    (writtenArity rule.action.kind).contains rule.action.indexes.length = true ∧
      ∀ i ∈ rule.action.indexes, i < rule.rhs.length
  /-- Every nonterminal that is used has a rule. -/
  defined {rule : ShiftReduce.Rule} (h : rule ∈ rules) {x : SymbolId} (hx : x ∈ rule.rhs)
    (hle : symbols.terminalCount ≤ x) : ∃ rule' ∈ rules, rule'.lhs = x
  size_le : rules.size ≤ limits.rules ∧ rules.size ≤ indexSpace
  length_le {rule : ShiftReduce.Rule} (h : rule ∈ rules.toList.tail) :
    rule.rhs.length ≤ limits.rightHandSide

theorem Printable.distinct {name : String} {as : List Alternative} (h : Printable name as) :
    ∀ a ∈ as, ∀ e ∈ a.elements, e.Distinct := by
  intro a ha e he body members hkind
  have hspells := ((h.alternatives a ha).elements e he).spells
  rw [hkind] at hspells
  cases hspells with
  | charClass =>
    exact (Distinct.nodup_eraseDups _).map fun c c' hc => String.singleton_inj.1 hc

/-- The forms of a grammar are its alternatives with their left-hand sides. -/
theorem mem_forms : form ∈ g.forms ↔
    ∃ rule ∈ g.rules, rule.lhs = form.1 ∧ form.2 ∈ rule.alternatives := by
  obtain ⟨lhs, a⟩ := form
  simp only [forms, List.mem_flatMap, List.mem_map, Prod.mk.injEq]
  constructor
  · rintro ⟨rule, hrule, a', ha', rfl, rfl⟩
    exact ⟨rule, hrule, rfl, ha'⟩
  · rintro ⟨rule, hrule, rfl, ha⟩
    exact ⟨rule, hrule, a, ha, rfl, rfl⟩

variable {source : String} {registry r : Registry}

/-- The grammar of a text has a rule for every nonterminal that its rules are flattened with. -/
theorem exists_lhs_of_mem_rhs (h : (parse source).runOn registry = (.ok g, r)) {accept : SymbolId}
    (hrules : g.rulesOver symbols limits accept = .ok rules) {rule : ShiftReduce.Rule}
    (hrule : rule ∈ rules) {x : SymbolId} (hx : x ∈ rule.rhs) (hle : symbols.terminalCount ≤ x) :
    ∃ rule' ∈ g.rules, rule'.lhs = x := by
  obtain ⟨n, hn⟩ := Array.getElem?_of_mem hrule
  have hexpanded := expanded_of_rulesOver hrules
  by_cases hstart : n = RuleId.start
  · subst hstart
    obtain rfl := Option.some.inj (hexpanded.first.symm.trans hn)
    obtain rfl := List.mem_singleton.1 hx
    obtain ⟨⟨ds, hgathers⟩, -⟩ := printable_of_parse h
    obtain ⟨rule', hhead, hlhs⟩ := Option.map_eq_some_iff.1 hgathers.start
    exact ⟨rule', List.mem_of_head? hhead, hlhs⟩
  · obtain ⟨a, hstems⟩ := hexpanded.stems hn hstart
    obtain ⟨e, -, hoffers⟩ := hstems.exists_offers hx
    rcases hoffers.cases with ⟨-, -, -, hdefined⟩ | ⟨name, -, hname⟩
    · exact hdefined
    · exact absurd (Registry.lt_of_terminal? hname) (Nat.not_lt_of_le hle)

theorem distinct_of_parse (h : (parse source).runOn registry = (.ok g, r)) :
    ∀ form ∈ g.forms, ∀ e ∈ form.2.elements, e.Distinct := by
  intro form hform
  obtain ⟨rule, hrule, -, ha⟩ := mem_forms.1 hform
  exact ((printable_of_parse h).2 rule hrule).distinct _ ha

/-- The start rule and the rules of the alternatives, which fit the numbers that rules have. -/
theorem expands_of_rulesOver (hd : ∀ form ∈ g.forms, ∀ e ∈ form.2.elements, e.Distinct)
    {accept : SymbolId} (h : g.rulesOver symbols limits accept = .ok rules) :
    (∃ blocks, List.Forall₂ (Expands g symbols) g.forms blocks ∧
      rules.toList = ⟨⟨accept, [g.start]⟩, .forward⟩ :: blocks.flatten) ∧
      rules.size ≤ indexSpace := by
  obtain ⟨rules₁, h₁, h⟩ := Except.bind_eq_ok h
  dsimp only at h
  split at h
  · exact nomatch h
  next hle =>
  obtain rfl := Except.ok.inj h
  rw [foldlM_rules_eq_foldlM_forms] at h₁
  exact ⟨exists_blocks_of_foldlM hd h₁, Nat.le_of_not_lt hle⟩

/-- What keeps the rules of a grammar from being made. -/
theorem hindered_of_rulesOver (hd : ∀ form ∈ g.forms, ∀ e ∈ form.2.elements, e.Distinct)
    {accept : SymbolId} (h : g.rulesOver symbols limits accept = .error e) :
    Hindered g symbols limits e := by
  rcases Except.bind_eq_error h with h | ⟨rules, hrules, h⟩
  · rw [foldlM_rules_eq_foldlM_forms] at h
    have hnone : List.Forall₂ (Expands g symbols) [] [] := .nil
    exact hindered_of_foldlM hd rfl hnone rfl h
  · rw [foldlM_rules_eq_foldlM_forms] at hrules
    obtain ⟨blocks, hblocks, hlist⟩ := exists_blocks_of_foldlM hd hrules
    dsimp only at h
    split at h
    · next hlt =>
      obtain rfl := Except.error.inj h
      refine .indexSpace hblocks ?_
      rwa [← Array.length_toList, hlist, List.length_append] at hlt
    · exact nomatch h

/-- The rules of a text are those of its alternatives behind the start rule. -/
theorem flattened_of_flatten (h : (parse source).runOn registry = (.ok g, r))
    (hflat : (g.flatten limits).runOn r = (.ok rules, symbols)) :
    ∃ accept, r.addNonterminal augmentedStart = (.ok accept, symbols) ∧
      g.Flattened symbols limits accept rules := by
  obtain ⟨accept, haccept, hrules⟩ := rulesOver_of_flatten hflat
  obtain ⟨-, _, ha⟩ := Automaton.augmented_of_readRules
    (Automaton.runOn_readRules_iff.2 ⟨r, h, hflat⟩)
  obtain ⟨⟩ := (expanded_of_rulesOver hrules).first.symm.trans ha.start_rule
  obtain ⟨⟨blocks, hblocks, hlist⟩, hspace⟩ := expands_of_rulesOver (distinct_of_parse h) hrules
  obtain ⟨hne, hstocked⟩ := stocked_of_parse h
  obtain ⟨hsize, hlength⟩ := (guarded_rulesOver hne hstocked accept limits rules hrules).1 trivial
  have hmem {rule : ShiftReduce.Rule} : rule ∈ rules ↔
      rule = ⟨⟨accept, [g.start]⟩, .forward⟩ ∨ rule ∈ blocks.flatten := by
    rw [← Array.mem_toList_iff, hlist, List.mem_cons]
  refine ⟨accept, haccept, {
    name := (Registry.addNonterminal_ok haccept).1
    expands := ⟨blocks, hblocks, hlist⟩
    eq_start := ha.eq_start
    accept_not_mem := fun hrule => ?_
    proper := fun hrule => ?_
    defined := fun hrule x hx hle => ?_
    size_le := ⟨hsize, hspace⟩
    length_le := hlength _ }⟩
  · obtain ⟨n, hn⟩ := Array.getElem?_of_mem hrule
    exact fun hx => ha.rhs_ne hn _ hx rfl
  · rcases hmem.1 hrule with rfl | hrule
    · exact ⟨rfl, nofun⟩
    · exact proper_of_mem_flatten hblocks hrule
  · obtain ⟨rule', hrule', rfl⟩ := exists_lhs_of_mem_rhs h hrules hrule hx hle
    obtain ⟨halternatives, helements⟩ := hstocked rule' hrule'
    obtain ⟨a, ha⟩ := List.exists_mem_of_ne_nil _ halternatives
    have hform : (rule'.lhs, a) ∈ g.forms := mem_forms.2 ⟨rule', hrule', rfl, ha⟩
    obtain ⟨rule₁, hrule₁, hlhs⟩ := exists_mem_flatten hblocks hform (helements a ha)
    exact ⟨rule₁, hmem.2 (.inr hrule₁), hlhs⟩

/-- **Flattening makes every rule that there is to make, in order, and fails for a cause.**  The
first rule derives the start symbol from `S'`, which occurs nowhere else.  Behind it come the rules
of the alternatives, one for each way to choose a symbol for each element. -/
theorem flatten_exact (h : (parse source).runOn registry = (.ok g, r)) (limits : Limits) :
    (∀ rules symbols, (g.flatten limits).runOn r = (.ok rules, symbols) →
      ∃ accept, r.addNonterminal augmentedStart = (.ok accept, symbols) ∧
        g.Flattened symbols limits accept rules) ∧
    ∀ e symbols, (g.flatten limits).runOn r = (.error e, symbols) →
      (∃ error, r.addNonterminal augmentedStart = (.error error, symbols) ∧ e = .registry error) ∨
        g.Hindered symbols limits e := by
  refine ⟨fun rules symbols => flattened_of_flatten h, fun e symbols hflat => ?_⟩
  rcases haccept : r.addNonterminal augmentedStart with ⟨error | accept, r'⟩
  · rw [flatten, runOn_bind_error (runOn_register_error haccept)] at hflat
    obtain ⟨⟨⟩, rfl⟩ := Prod.mk.inj hflat
    exact .inl ⟨error, rfl, rfl⟩
  · have hget : (get : Registering Registry).runOn r' = (.ok r', r') := rfl
    rw [flatten, runOn_bind_ok (runOn_register_ok haccept), runOn_bind_ok hget] at hflat
    refine .inr ?_
    cases hrules : g.rulesOver r' limits accept with
    | ok rules =>
      rw [hrules] at hflat
      cases hflat
    | error e' =>
      rw [hrules] at hflat
      obtain ⟨⟨⟩, rfl⟩ := Prod.mk.inj (hflat : (Except.error e', r') = (_, _))
      exact hindered_of_rulesOver (distinct_of_parse h) hrules

/-- Two classes of two members make four rules in order, which with one more rule and the start rule
are one too many for a limit of five. -/
theorem flatten_exact_classes : ∃ (g : Grammar) (r symbols symbols' : Registry)
    (rules : Array ShiftReduce.Rule) (accept : SymbolId) (few : Limits),
    (parse "s = [*-] [+/] | NUM;").runOn .standard = (.ok g, r) ∧
    (g.flatten {}).runOn r = (.ok rules, symbols) ∧ g.Flattened symbols {} accept rules ∧
    rules.toList.tail.map (·.rhs.map symbols.name?) = [[some "*", some "+"], [some "*", some "/"],
      [some "-", some "+"], [some "-", some "/"], [some "NUM"]] ∧
    few.rules = 5 ∧ (g.flatten few).runOn r = (.error (.tooMany .rules 5), symbols') ∧
    g.Hindered symbols' few (.tooMany .rules 5) := by
  let few : Limits := { rules := 5 }
  let r := ((parse "s = [*-] [+/] | NUM;").runOn .standard).2
  let symbols (g : Grammar) := ((g.flatten {}).runOn r).2
  have hok : ((parse "s = [*-] [+/] | NUM;").runOn .standard).1.toOption.any (fun g =>
      ((g.flatten {}).runOn r).1.toOption.any fun rules => decide (
        rules.toList.tail.map (·.rhs.map (symbols g).name?) = [[some "*", some "+"],
          [some "*", some "/"], [some "-", some "+"], [some "-", some "/"], [some "NUM"]] ∧
        ((g.flatten few).runOn r).1 = .error (.tooMany .rules 5))) = true := by
    decide +kernel
  obtain ⟨g, hg, hok⟩ := Except.exists_of_any_toOption hok
  obtain ⟨rules, hrules, hok⟩ := Except.exists_of_any_toOption hok
  obtain ⟨hnames, hmany⟩ := of_decide_eq_true hok
  have hparse : (parse "s = [*-] [+/] | NUM;").runOn .standard = (.ok g, r) := Prod.ext hg rfl
  have hflat : (g.flatten {}).runOn r = (.ok rules, symbols g) := Prod.ext hrules rfl
  have hfew : (g.flatten few).runOn r = (.error (.tooMany .rules 5), _) := Prod.ext hmany rfl
  obtain ⟨accept, -, hflattened⟩ := (flatten_exact hparse {}).1 rules _ hflat
  have hhindered := ((flatten_exact hparse few).2 _ _ hfew).resolve_left nofun
  exact ⟨g, r, _, _, rules, accept, few, hparse, hflat, hflattened, hnames, rfl, hfew, hhindered⟩

end ShiftReduce.Grammar

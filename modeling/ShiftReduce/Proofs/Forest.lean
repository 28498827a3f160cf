import Mathlib.Data.List.Basic
import ShiftReduce.Proofs.Derivation

/-!
# Proofs/Forest — derivation trees

A forest is a row of derivation trees, built from the left as a shift-reduce parser builds it: each
tree is a leaf, or a rule over a forest of its own.  `Parses` says that the trees have the symbols
of a form at their roots; a derivation tree of a symbol is a forest that parses that symbol alone.

Reading a forest in post-order gives the moves of a parser (`moves`).  The reductions among them,
read backwards, are a rightmost derivation (`rightmost_of_parses`), and the moves determine the
forest (`eq_of_moves_eq`).
-/

namespace ShiftReduce

open ShiftReduce.Derivation

/-- What a parser does to its stack. -/
inductive Move where
  /-- Takes the terminal. -/
  | shift (t : SymbolId)
  /-- Reduces by the rule. -/
  | reduce (r : RuleId)
deriving DecidableEq, Repr

/-- The rule of a reduction. -/
def Move.rule? : Move → Option RuleId
  | .shift _ => none
  | .reduce r => some r

/-- The terminal of a shift. -/
def Move.terminal? : Move → Option SymbolId
  | .shift t => some t
  | .reduce _ => none

/-- Derivation trees side by side, with a row for the trees to the left of the last one. -/
inductive Forest (α : Type) where
  | nil
  | leaf (init : Forest α) (a : α)
  | node (init : Forest α) (r : RuleId) (children : Forest α)
deriving DecidableEq, Repr

namespace Forest

variable {α : Type} {rules : Array Rule} {terminalCount : Nat} {terminal : α → SymbolId}

/-- The leaves, from left to right. -/
def yield : Forest α → List α
  | nil => []
  | leaf init a => init.yield ++ [a]
  | node init _ children => init.yield ++ children.yield

/-- The forest in post-order: each leaf is shifted, and each rule reduced behind its children. -/
def moves (terminal : α → SymbolId) : Forest α → List Move
  | nil => []
  | leaf init a => init.moves terminal ++ [.shift (terminal a)]
  | node init r children => init.moves terminal ++ (children.moves terminal ++ [.reduce r])

/-- The rules in post-order. -/
def reductions : Forest α → List RuleId
  | nil => []
  | leaf init _ => init.reductions
  | node init r children => init.reductions ++ (children.reductions ++ [r])

/-- The trees of two forests side by side. -/
def append (F : Forest α) : Forest α → Forest α
  | nil => F
  | leaf init a => leaf (append F init) a
  | node init r children => node (append F init) r children

/-- The trees have the symbols of the form at their roots. -/
inductive Parses (rules : Array Rule) (terminalCount : Nat) (terminal : α → SymbolId) :
    List SymbolId → Forest α → Prop
  | nil : Parses rules terminalCount terminal [] .nil
  | leaf {xs : List SymbolId} {F : Forest α} {a : α}
    (h : Parses rules terminalCount terminal xs F) (ha : terminal a < terminalCount) :
    Parses rules terminalCount terminal (xs ++ [terminal a]) (.leaf F a)
  | node {xs : List SymbolId} {F children : Forest α} {r : RuleId} {rule : Rule}
    (h : Parses rules terminalCount terminal xs F) (hr : rules[r]? = some rule)
    (hc : Parses rules terminalCount terminal rule.rhs children) :
    Parses rules terminalCount terminal (xs ++ [rule.lhs]) (.node F r children)

/-! ## Forests side by side -/

@[simp] theorem yield_append (F G : Forest α) : (F.append G).yield = F.yield ++ G.yield := by
  induction G with
  | nil => simp [append, yield]
  | leaf init a ih => simp [append, yield, ih]
  | node init r children ih _ => simp [append, yield, ih]

@[simp] theorem moves_append (F G : Forest α) :
    (F.append G).moves terminal = F.moves terminal ++ G.moves terminal := by
  induction G with
  | nil => simp [append, moves]
  | leaf init a ih => simp [append, moves, ih]
  | node init r children ih _ => simp [append, moves, ih]

theorem reductions_eq (F : Forest α) : F.reductions = (F.moves terminal).filterMap Move.rule? := by
  induction F with
  | nil => rfl
  | leaf init a ih => simp [reductions, moves, ih, Move.rule?]
  | node init r children ih ih' => simp [reductions, moves, ih, ih', Move.rule?]

/-- The leaves are what is shifted. -/
theorem map_yield_eq (F : Forest α) :
    F.yield.map terminal = (F.moves terminal).filterMap Move.terminal? := by
  induction F with
  | nil => rfl
  | leaf init a ih => simp [yield, moves, ih, Move.terminal?]
  | node init r children ih ih' => simp [yield, moves, ih, ih', Move.terminal?]

theorem Parses.append {xs ys : List SymbolId} {F G : Forest α}
    (hF : Parses rules terminalCount terminal xs F)
    (hG : Parses rules terminalCount terminal ys G) :
    Parses rules terminalCount terminal (xs ++ ys) (F.append G) := by
  induction hG with
  | nil => rwa [List.append_nil]
  | leaf _ ha ih =>
    rw [← List.append_assoc]
    exact .leaf ih ha
  | node _ hr hc ih _ =>
    rw [← List.append_assoc]
    exact .node ih hr hc

/-- The forest of a form in two parts is two forests side by side. -/
theorem Parses.exists_append {xs ys : List SymbolId} {H : Forest α}
    (h : Parses rules terminalCount terminal (xs ++ ys) H) :
    ∃ F G, H = F.append G ∧ Parses rules terminalCount terminal xs F ∧
      Parses rules terminalCount terminal ys G := by
  generalize hzs : xs ++ ys = zs at h
  induction h generalizing ys with
  | nil =>
    obtain ⟨rfl, rfl⟩ := List.append_eq_nil_iff.1 hzs
    exact ⟨.nil, .nil, rfl, .nil, .nil⟩
  | @leaf zs H a h ha ih =>
    rcases List.eq_nil_or_concat' ys with rfl | ⟨ys, y, rfl⟩
    · rw [List.append_nil] at hzs
      exact ⟨_, .nil, rfl, hzs ▸ .leaf h ha, .nil⟩
    · obtain ⟨hinit, hlast⟩ := List.append_inj' ((List.append_assoc xs ys [y]).trans hzs) rfl
      obtain rfl := List.singleton_inj.1 hlast
      obtain ⟨F, G, rfl, hF, hG⟩ := ih hinit
      exact ⟨F, G.leaf a, rfl, hF, .leaf hG ha⟩
  | @node zs H children r rule h hr hc ih _ =>
    rcases List.eq_nil_or_concat' ys with rfl | ⟨ys, y, rfl⟩
    · rw [List.append_nil] at hzs
      exact ⟨_, .nil, rfl, hzs ▸ .node h hr hc, .nil⟩
    · obtain ⟨hinit, hlast⟩ := List.append_inj' ((List.append_assoc xs ys [y]).trans hzs) rfl
      obtain rfl := List.singleton_inj.1 hlast
      obtain ⟨F, G, rfl, hF, hG⟩ := ih hinit
      exact ⟨F, G.node r children, rfl, hF, .node hG hr hc⟩

/-- The symbols at the roots, if the trees are well-formed. -/
def roots? (rules : Array Rule) (terminalCount : Nat) (terminal : α → SymbolId) :
    Forest α → Option (List SymbolId)
  | nil => some []
  | leaf init a => do
    let xs ← init.roots? rules terminalCount terminal
    if terminal a < terminalCount then some (xs ++ [terminal a]) else none
  | node init r children => do
    let xs ← init.roots? rules terminalCount terminal
    let rule ← rules[r]?
    let ys ← children.roots? rules terminalCount terminal
    if ys = rule.rhs then some (xs ++ [rule.lhs]) else none

theorem roots?_eq_some_iff {F : Forest α} {xs : List SymbolId} :
    F.roots? rules terminalCount terminal = some xs ↔
      Parses rules terminalCount terminal xs F := by
  constructor
  · intro h
    induction F generalizing xs with
    | nil =>
      obtain rfl := Option.some.inj h
      exact .nil
    | leaf init a ih =>
      obtain ⟨ys, hinit, h⟩ := Option.bind_eq_some_iff.1 h
      split at h
      · next ha =>
        obtain rfl := Option.some.inj h
        exact .leaf (ih hinit) ha
      · exact nomatch h
    | node init r children ih ihc =>
      obtain ⟨ys, hinit, h⟩ := Option.bind_eq_some_iff.1 h
      obtain ⟨rule, hr, h⟩ := Option.bind_eq_some_iff.1 h
      obtain ⟨zs, hchildren, h⟩ := Option.bind_eq_some_iff.1 h
      split at h
      · next hzs =>
        obtain rfl := Option.some.inj h
        exact .node (ih hinit) hr (ihc (hzs ▸ hchildren))
      · exact nomatch h
  · intro h
    induction h with
    | nil => rfl
    | leaf _ ha ih => simp [roots?, ih, ha]
    | node _ hr _ ih ihc => simp [roots?, ih, hr, ihc]

instance (F : Forest α) (xs : List SymbolId) :
    Decidable (Parses rules terminalCount terminal xs F) :=
  decidable_of_iff _ roots?_eq_some_iff

/-! ## What a forest derives -/

theorem Parses.lt_of_mem_yield {xs : List SymbolId} {F : Forest α}
    (h : Parses rules terminalCount terminal xs F) : ∀ a ∈ F.yield, terminal a < terminalCount := by
  induction h with
  | nil => simp [yield]
  | leaf _ ha ih => simpa [yield, or_imp, forall_and] using ⟨ih, ha⟩
  | node _ _ _ ih ihc => simpa [yield, or_imp, forall_and] using ⟨ih, ihc⟩

/-- **The reductions read backwards are a rightmost derivation** of the leaves. -/
theorem rightmost_of_parses {xs : List SymbolId} {F : Forest α}
    (h : Parses rules terminalCount terminal xs F) :
    Rightmost rules terminalCount xs F.reductions.reverse (F.yield.map terminal) := by
  -- in a context that the derivation leaves alone
  suffices hctx : ∀ before behind : List SymbolId, (∀ t ∈ behind, t < terminalCount) →
      Rightmost rules terminalCount (before ++ (xs ++ behind)) F.reductions.reverse
        (before ++ (F.yield.map terminal ++ behind)) by
    simpa using hctx [] [] (by simp)
  induction h with
  | nil => exact fun before behind _ => .refl _
  | leaf _ ha ih =>
    intro before behind hb
    simpa [yield, reductions] using
      ih before (terminal _ :: behind) (List.forall_mem_cons.2 ⟨ha, hb⟩)
  | @node xs F children r rule h hr hc ih ihc =>
    intro before behind hb
    have hchildren := ihc (before ++ xs) behind hb
    have hinit := ih before (children.yield.map terminal ++ behind) (by
      simpa [or_imp, forall_and] using ⟨hc.lt_of_mem_yield, hb⟩)
    have hrest := hchildren.trans (by simpa using hinit)
    simpa [yield, reductions] using Rightmost.step (before ++ xs) behind hr hb hrest

/-- A form with a forest derives its leaves. -/
theorem Parses.derives {xs : List SymbolId} {F : Forest α}
    (h : Parses rules terminalCount terminal xs F) :
    Derives (productions rules) xs (F.yield.map terminal) := (rightmost_of_parses h).derives

/-- A vanishing form has a forest without leaves. -/
theorem exists_parses_of_vanishes (terminal : α → SymbolId) {xs : List SymbolId}
    (h : Vanishes (productions rules) xs) :
    ∃ F : Forest α, Parses rules terminalCount terminal xs F ∧ F.yield = [] := by
  induction h with
  | nil => exact ⟨.nil, .nil, rfl⟩
  | cons hp _ _ ih ihs =>
    obtain ⟨r, rule, hr, rfl⟩ := mem_productions.1 hp
    obtain ⟨children, hc, hy⟩ := ih
    obtain ⟨F, hF, hyF⟩ := ihs
    refine ⟨(Forest.node .nil r children).append F, (Parses.node .nil hr hc).append hF, ?_⟩
    simp [yield, hy, hyF]

theorem exists_parses_of_terminals {ts : List SymbolId} (h : ∀ t ∈ ts, t < terminalCount) :
    ∃ F, Parses rules terminalCount id ts F ∧ F.yield = ts := by
  induction ts with
  | nil => exact ⟨.nil, .nil, rfl⟩
  | cons t ts ih =>
    obtain ⟨ht, hts⟩ := List.forall_mem_cons.1 h
    obtain ⟨F, hF, rfl⟩ := ih hts
    exact ⟨(Forest.nil.leaf t).append F, (Parses.leaf .nil ht).append hF, by simp [yield]⟩

/-- **What a form derives are the leaves of a forest of it.** -/
theorem exists_parses_of_derives {xs ts : List SymbolId} (h : Derives (productions rules) xs ts)
    (hts : ∀ t ∈ ts, t < terminalCount) :
    ∃ F, Parses rules terminalCount id xs F ∧ F.yield = ts := by
  induction h using Relation.ReflTransGen.head_induction_on with
  | refl => exact exists_parses_of_terminals hts
  | head hs _ ih =>
    obtain ⟨before, behind, hp⟩ := hs
    obtain ⟨r, rule, hr, rfl⟩ := mem_productions.1 hp
    obtain ⟨H, hH, rfl⟩ := ih
    obtain ⟨F, H, rfl, hF, hH⟩ := hH.exists_append
    obtain ⟨children, G, rfl, hchildren, hG⟩ := hH.exists_append
    refine ⟨F.append ((Forest.node .nil r children).append G),
      hF.append ((Parses.node .nil hr hchildren).append hG), ?_⟩
    simp [yield]

/-! ## Moves determine the forest -/

/-- **The moves determine the forest**, whatever was moved before them. -/
theorem eq_of_moves_eq {xs : List SymbolId} {F G : Forest SymbolId}
    (hF : Parses rules terminalCount id xs F) (hG : Parses rules terminalCount id xs G)
    (h : F.moves id = G.moves id) : F = G := by
  -- read from the right, a tree comes before its children, so that each move tells the next tree
  suffices hsuffix : ∀ before before' : List Move,
      before ++ F.moves id = before' ++ G.moves id → F = G ∧ before = before' from
    (hsuffix [] [] (by simpa using h)).1
  clear h
  induction hF generalizing G with
  | nil =>
    intro before before' h
    generalize hxs : ([] : List SymbolId) = xs at hG
    cases hG with
    | nil => exact ⟨rfl, by simpa [moves] using h⟩
    | leaf => simp at hxs
    | node => simp at hxs
  | @leaf xs F t hF ht ih =>
    intro before before' h
    generalize hxs : xs ++ [id t] = ys at hG
    cases hG with
    | nil => simp at hxs
    | @leaf ys G t' hG ht' =>
      obtain ⟨rfl, hlast⟩ := List.append_inj' hxs rfl
      obtain rfl : t = t' := List.singleton_inj.1 hlast
      simp only [moves, ← List.append_assoc] at h
      obtain ⟨rfl, rfl⟩ := ih hG before before' (List.append_inj' h rfl).1
      exact ⟨rfl, rfl⟩
    | node =>
      simp only [moves, ← List.append_assoc] at h
      simpa using (List.append_inj' h rfl).2
  | @node xs F children r rule hF hr hc ih ihc =>
    intro before before' h
    generalize hxs : xs ++ [rule.lhs] = ys at hG
    cases hG with
    | nil => simp at hxs
    | leaf =>
      simp only [moves, ← List.append_assoc] at h
      simpa using (List.append_inj' h rfl).2
    | @node ys G children' r' rule' hG hr' hc' =>
      obtain ⟨rfl, -⟩ := List.append_inj' hxs rfl
      simp only [moves, ← List.append_assoc] at h
      obtain ⟨hchildren, hlast⟩ := List.append_inj' h rfl
      obtain rfl : r = r' := by simpa using hlast
      obtain rfl := Option.some.inj (hr.symm.trans hr')
      obtain ⟨rfl, hinit⟩ := ihc hc' _ _ hchildren
      obtain ⟨rfl, rfl⟩ := ih hG before before' hinit
      exact ⟨rfl, rfl⟩

end Forest
end ShiftReduce

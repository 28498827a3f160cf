import ShiftReduce.Proofs.Action
import ShiftReduce.Proofs.Automaton
import ShiftReduce.Proofs.Printing

/-!
# Proofs/Capacity — limits reject what exceeds them, and nothing else

Every stage of the construction that is given limits is guarded by them in the same way
(`Limits.Guarded`): its result is within the limits, and under any other limits that the result is
within, the stage has the same result.  No limit leaks into a result, and it does not matter whether
a stage counts before or behind what it adds.  Stages one behind the other are guarded as each of
them is, so that an automaton is generated within just those limits that it fits
(`Automaton.generate_iff_within`).
-/

namespace ShiftReduce

/-! ## Guarded computations -/

/-- The limits are as large as the others. -/
structure Limits.Le (limits limits' : Limits) : Prop where
  states : limits.states ≤ limits'.states
  rules : limits.rules ≤ limits'.rules
  labelledRules : limits.labelledRules ≤ limits'.labelledRules
  rightHandSide : limits.rightHandSide ≤ limits'.rightHandSide
  symbols : limits.symbols ≤ limits'.symbols

namespace Limits

/-- The larger one of each two limits. -/
def sup (limits limits' : Limits) : Limits where
  states := max limits.states limits'.states
  rules := max limits.rules limits'.rules
  labelledRules := max limits.labelledRules limits'.labelledRules
  rightHandSide := max limits.rightHandSide limits'.rightHandSide
  symbols := max limits.symbols limits'.symbols

theorem le_sup_left (limits limits' : Limits) : limits.Le (limits.sup limits') :=
  ⟨Nat.le_max_left _ _, Nat.le_max_left _ _, Nat.le_max_left _ _, Nat.le_max_left _ _,
    Nat.le_max_left _ _⟩

theorem le_sup_right (limits limits' : Limits) : limits'.Le (limits.sup limits') :=
  ⟨Nat.le_max_right _ _, Nat.le_max_right _ _, Nat.le_max_right _ _, Nat.le_max_right _ _,
    Nat.le_max_right _ _⟩

variable {ε α β σ : Type}

/-- Limits do nothing to the computation but reject.  If what it begins with is within the limits
(`P`), its result is (`Q`); and under whatever limits the result is within, it is the result again,
and what the computation begins with is within these limits too. -/
def Guarded (P : Limits → Prop) (F : Limits → Except ε β) (Q : Limits → β → Prop) : Prop :=
  ∀ limits b, F limits = .ok b →
    (P limits → Q limits b) ∧ ∀ limits', Q limits' b → P limits' ∧ F limits' = .ok b

variable {P : Limits → Prop} {F : Limits → Except ε α} {Q : Limits → α → Prop}
  {R : Limits → β → Prop}

theorem guarded_ok {a : α} (h : ∀ limits, P limits ↔ Q limits a) :
    Guarded P (fun _ => (.ok a : Except ε α)) Q := by
  intro limits b hb
  obtain rfl := Except.ok.inj hb
  exact ⟨(h limits).1, fun limits' hQ => ⟨(h limits').2 hQ, rfl⟩⟩

/-- A computation that limits have nothing to do with. -/
theorem guarded_const (m : Except ε α) : Guarded P (fun _ => m) (fun limits _ => P limits) :=
  fun _ _ hm => ⟨id, fun _ hP => ⟨hP, hm⟩⟩

theorem guarded_error {e : Limits → ε} : Guarded P (fun limits => .error (e limits)) Q := nofun

/-- One computation behind the other. -/
theorem Guarded.bind {G : Limits → α → Except ε β} (hF : Guarded P F Q)
    (hG : ∀ a limits, F limits = .ok a → Guarded (Q · a) (G · a) R) :
    Guarded P (fun limits => F limits >>= G limits) R := by
  intro limits b hb
  obtain ⟨a, ha, hb⟩ := Except.bind_eq_ok hb
  obtain ⟨hQ, htoF⟩ := hF limits a ha
  obtain ⟨hR, htoG⟩ := hG a limits ha limits b hb
  refine ⟨hR ∘ hQ, fun limits' hR' => ?_⟩
  obtain ⟨hQ', hG'⟩ := htoG limits' hR'
  obtain ⟨hP', hF'⟩ := htoF limits' hQ'
  refine ⟨hP', ?_⟩
  dsimp only
  rw [hF']
  exact hG'

/-- A check before the computation. -/
theorem Guarded.check {bad : Limits → Prop} [DecidablePred bad] {e : Limits → ε}
    (hF : Guarded (fun limits => P limits ∧ ¬ bad limits) F Q) :
    Guarded P (fun limits => if bad limits then .error (e limits) else F limits) Q := by
  intro limits b hb
  dsimp only at hb ⊢
  split at hb
  · exact nomatch hb
  next hgood =>
  obtain ⟨hQ, hto⟩ := hF limits b hb
  refine ⟨fun hP => hQ ⟨hP, hgood⟩, fun limits' hQ' => ?_⟩
  obtain ⟨⟨hP', hgood'⟩, hF'⟩ := hto limits' hQ'
  exact ⟨hP', by rw [if_neg hgood', hF']⟩

/-- A bound on something that the computation does not change. -/
theorem Guarded.frame (hF : Guarded P F Q) (B : Limits → Prop) :
    Guarded (fun limits => B limits ∧ P limits) F (fun limits a => B limits ∧ Q limits a) := by
  intro limits a ha
  obtain ⟨hforward, hto⟩ := hF limits a ha
  refine ⟨fun ⟨hB, hP⟩ => ⟨hB, hforward hP⟩, fun limits' ⟨hB', hQ'⟩ => ?_⟩
  obtain ⟨hP', hF'⟩ := hto limits' hQ'
  exact ⟨⟨hB', hP'⟩, hF'⟩

/-- Another way to say what is within limits. -/
theorem Guarded.congr {P' : Limits → Prop} {Q' : Limits → α → Prop} (hF : Guarded P F Q)
    (hP : ∀ limits, P limits ↔ P' limits)
    (hQ : ∀ a limits, F limits = .ok a → ∀ limits', Q limits' a ↔ Q' limits' a) :
    Guarded P' F Q' := by
  intro limits b hb
  obtain ⟨hforward, hto⟩ := hF limits b hb
  refine ⟨fun hP' => (hQ b limits hb limits).1 (hforward ((hP limits).2 hP')),
    fun limits' hQ' => ?_⟩
  obtain ⟨hP', hF'⟩ := hto limits' ((hQ b limits hb limits').2 hQ')
  exact ⟨(hP limits').1 hP', hF'⟩

/-- A fold whose steps are guarded, as long as `I` is true. -/
theorem guarded_foldlM {I : σ → Prop} {S : Limits → σ → Prop} {f : Limits → σ → α → Except ε σ}
    {l : List α} (hI : ∀ limits s s', ∀ a ∈ l, I s → f limits s a = .ok s' → I s')
    (hf : ∀ s, ∀ a ∈ l, I s → Guarded (S · s) (f · s a) S) {s : σ} (hs : I s) :
    Guarded (S · s) (fun limits => l.foldlM (f limits) s) S := by
  induction l generalizing s with
  | nil => exact guarded_ok fun _ => Iff.rfl
  | cons a l ih =>
    simp only [List.foldlM_cons]
    exact (hf s a List.mem_cons_self hs).bind fun s' limits hs' =>
      ih (fun limits s s' a ha => hI limits s s' a (List.mem_cons_of_mem _ ha))
        (fun s a ha => hf s a (List.mem_cons_of_mem _ ha))
        (hI limits s s' a List.mem_cons_self hs hs')

/-- Results of a guarded computation that fit some limits together are the same. -/
theorem Guarded.unique (hF : Guarded P F Q) (common : Limits) {limits limits' : Limits} {a a' : α}
    (ha : F limits = .ok a) (ha' : F limits' = .ok a') (hQ : Q common a) (hQ' : Q common a') :
    a = a' := by
  obtain ⟨-, h⟩ := (hF limits a ha).2 common hQ
  obtain ⟨-, h'⟩ := (hF limits' a' ha').2 common hQ'
  exact Except.ok.inj (h.symm.trans h')

end Limits

open Limits

/-! ## States -/

namespace Collection

variable {rules : Array Rule} {a : Analysis} {states : Array State}

theorem guarded_stateOf (kernel : List Item) :
    Guarded (fun limits => states.size ≤ maxStates limits)
      (fun limits => stateOf rules a limits states kernel)
      (fun limits p => p.2.size ≤ maxStates limits) := by
  unfold stateOf
  cases states.findIdx? (·.hasKernel kernel) with
  | some q => exact guarded_ok fun _ => Iff.rfl
  | none =>
    intro limits p hp
    dsimp only at hp ⊢
    split at hp
    · next hlt =>
      obtain rfl := Except.ok.inj hp
      simp only [Array.size_push]
      exact ⟨fun _ => hlt, fun limits' hlt' => ⟨Nat.le_of_lt hlt', if_pos hlt'⟩⟩
    · exact nomatch hp

theorem guarded_follow (state : State) (xs : List SymbolId) :
    Guarded (fun limits => states.size ≤ maxStates limits)
      (fun limits => follow rules a limits state xs states)
      (fun limits p => p.2.size ≤ maxStates limits) := by
  induction xs generalizing states with
  | nil => exact guarded_ok fun _ => Iff.rfl
  | cons x xs ih =>
    simp only [follow]
    exact (guarded_stateOf _).bind fun _ _ _ => ih.bind fun _ _ _ => guarded_ok fun _ => Iff.rfl

/-- A collection that is completed within some limits is completed within all that it fits, given as
many rounds as these limits have states. -/
theorem complete_eq_of_size_le {limits limits' : Limits} {n n' : Nat} {c c' : Collection}
    (h : complete rules a limits n c = .ok c') (hdone : c'.transitions.size = c'.states.size)
    (hsize : c'.states.size ≤ maxStates limits')
    (hn : maxStates limits' ≤ c.transitions.size + n') :
    c.states.size ≤ maxStates limits' ∧ complete rules a limits' n' c = .ok c' := by
  -- the smaller limits may stop a round earlier, with nothing left to do
  have hstop {n' : Nat} {c : Collection} (hnone : c.states[c.transitions.size]? = none) :
      complete rules a limits' n' c = .ok c := by
    cases n' with
    | zero => rfl
    | succ n' => rw [complete, hnone]
  induction n generalizing c n' with
  | zero =>
    obtain rfl := Except.ok.inj h
    exact ⟨hsize, hstop (Array.getElem?_eq_none hdone.ge)⟩
  | succ n ih =>
    rw [complete] at h
    split at h
    · next hnone =>
      obtain rfl := Except.ok.inj h
      exact ⟨hsize, hstop hnone⟩
    · next state hs =>
      obtain ⟨⟨ts, states⟩, hf, h⟩ := Except.bind_eq_ok h
      have hnext (n' : Nat) (hn : maxStates limits' ≤ c.transitions.size + 1 + n') :
          states.size ≤ maxStates limits' ∧
            complete rules a limits' n' ⟨states, c.transitions.push ts⟩ = .ok c' :=
        ih h (by rwa [Array.size_push])
      obtain ⟨hstates, -⟩ := hnext n' (by omega)
      obtain ⟨hle, hf'⟩ := (guarded_follow state _ limits _ hf).2 limits' hstates
      have hlt : c.transitions.size < c.states.size := (Array.getElem?_eq_some_iff.1 hs).1
      refine ⟨hle, ?_⟩
      cases n' with
      | zero => omega
      | succ n' =>
        obtain ⟨-, hrest⟩ := hnext n' (by omega)
        rw [complete, hs]
        dsimp only at hf' ⊢
        rw [hf']
        exact hrest

/-- **A collection is built within just those limits that its states fit.** -/
theorem guarded_canonical (rules : Array Rule) (a : Analysis) :
    Guarded (fun _ => True) (canonical rules a)
      (fun limits c => c.states.size ≤ limits.states) := by
  intro limits c h
  obtain ⟨⟨q, states⟩, h₀, hc⟩ := Except.bind_eq_ok h
  have hgrowing := growing_of_stateOf h₀
  have hsize : c.states.size ≤ maxStates limits := (hgrowing.of_complete hc).size_le
  have hdone := hgrowing.size_transitions_eq (by simp) hc
  refine ⟨fun _ => hsize.trans (Nat.min_le_left _ _), fun limits' hstates => ⟨trivial, ?_⟩⟩
  have hsize' : c.states.size ≤ maxStates limits' :=
    Nat.le_min.2 ⟨hstates, hsize.trans (Nat.min_le_right _ _)⟩
  obtain ⟨hle, hc'⟩ := complete_eq_of_size_le hc hdone hsize' (Nat.le_add_left _ _)
  obtain ⟨-, h₀'⟩ := (guarded_stateOf _ limits _ h₀).2 limits' hle
  dsimp only at h₀'
  unfold canonical
  rw [h₀']
  exact hc'

end Collection

/-! ## Labels -/

namespace LabelledGrammar

variable {table : CellTable} {terminalCount base : Nat} {labels : Numbering Label}

theorem guarded_number (label : Label) :
    Guarded (fun limits => base + labels.size ≤ limits.symbols)
      (fun limits => number base limits label labels)
      (fun limits p => base + p.2.size ≤ limits.symbols) := by
  unfold number
  split
  · exact guarded_ok fun _ => Iff.rfl
  · next hnew =>
    refine .check ?_
    split
    · exact guarded_error
    · exact guarded_ok fun limits => by rw [Numbering.size_push]; omega

theorem guarded_walk (xs : List SymbolId) (q : StateId) :
    Guarded (fun limits => base + labels.size ≤ limits.symbols)
      (fun limits => walk table terminalCount base limits q xs labels)
      (fun limits p => base + p.2.2.size ≤ limits.symbols) := by
  induction xs generalizing q labels with
  | nil => exact guarded_ok fun _ => Iff.rfl
  | cons x xs ih =>
    simp only [walk]
    refine (guarded_const _).bind fun next _ _ => ?_
    split
    · exact (ih next).bind fun _ _ _ => guarded_ok fun _ => Iff.rfl
    · exact (guarded_number _).bind fun _ _ _ =>
        (ih next).bind fun _ _ _ => guarded_ok fun _ => Iff.rfl

theorem guarded_labelRule (q : StateId) (r : RuleId) (rule : Rule) :
    Guarded (fun limits => base + labels.size ≤ limits.symbols)
      (fun limits => labelRule table terminalCount base limits q r rule labels)
      (fun limits p => base + p.2.size ≤ limits.symbols) := by
  unfold labelRule
  refine (guarded_walk rule.rhs q).bind fun p _ _ => ?_
  dsimp only
  split
  · exact guarded_ok fun _ => Iff.rfl
  · exact (guarded_const _).bind fun _ _ _ => (guarded_number _).bind fun _ _ _ =>
      guarded_ok fun _ => Iff.rfl

/-- Labelled rules are counted before one is added. -/
theorem guarded_labelNext (done : List LabelledRule × Nat × Numbering Label)
    (begin : StateId × RuleId × Rule) :
    Guarded
      (fun limits => done.2.1 ≤ limits.labelledRules ∧ base + done.2.2.size ≤ limits.symbols)
      (fun limits => labelNext table terminalCount base limits done begin)
      (fun limits done => done.2.1 ≤ limits.labelledRules ∧
        base + done.2.2.size ≤ limits.symbols) := by
  obtain ⟨rules, count, labels⟩ := done
  obtain ⟨q, r, rule⟩ := begin
  unfold labelNext
  refine ((guarded_labelRule q r rule).frame (count ≤ ·.labelledRules)).bind fun p _ _ => ?_
  refine .check (guarded_ok fun limits => ?_)
  dsimp only
  omega

/-- The count is that of the labelled rules. -/
theorem length_of_labelAll {limits : Limits} {begun : List (StateId × RuleId × Rule)}
    {done : List LabelledRule} {count : Nat}
    (h : labelAll table terminalCount base limits begun = .ok (done, count, labels)) :
    done.length = count := by
  refine Except.foldlM_induction (p := fun done => done.1.length = done.2.1) ?_ rfl h
  rintro ⟨q, r, rule⟩ - ⟨done, count, labels⟩ s' hlength hs'
  obtain ⟨p, -, hs'⟩ := Except.bind_eq_ok hs'
  dsimp only at hs'
  split at hs'
  · exact nomatch hs'
  · obtain rfl := Except.ok.inj hs'
    exact congrArg Nat.succ hlength

/-- **A grammar is labelled within just those limits that the labelled rules fit, and the labels
together with the symbols.** -/
theorem guarded_build (rules : Array Rule) (c : Collection) (a : Analysis) (symbols : Registry) :
    Guarded (fun limits => symbols.size ≤ limits.symbols)
      (build rules c a symbols)
      (fun limits g => g.rules.length ≤ limits.labelledRules ∧
        symbols.size + g.labels.size ≤ limits.symbols) := by
  have hall : Guarded (fun limits => symbols.size ≤ limits.symbols)
      (fun limits => labelAll (c.table a) symbols.terminalCount symbols.size limits (begun rules c))
      (fun limits done => done.2.1 ≤ limits.labelledRules ∧
        symbols.size + done.2.2.size ≤ limits.symbols) := by
    refine (guarded_foldlM (I := fun _ => True) (fun _ _ _ _ _ _ _ => trivial)
      (fun done begin _ _ => guarded_labelNext done begin) trivial).congr (fun limits => ?_)
      fun _ _ _ _ => Iff.rfl
    have hempty : (Numbering.empty : Numbering Label).size = 0 := rfl
    simp [hempty]
  unfold build
  refine hall.bind fun ⟨done, count, labels⟩ limits hdone => guarded_ok fun limits => ?_
  rw [List.length_reverse, length_of_labelAll hdone]

end LabelledGrammar

/-! ## Rules -/

namespace Grammar

open Registering

/-! The start rule is there before any rule is counted, and the length of a right-hand side is
checked before it is known whether there is one.  Neither matters to a grammar that was read: it has
an alternative, and every alternative yields a rule. -/

/-- An element that matches something: a class of lexemes is not empty. -/
def Element.Stocked (e : Element) : Prop :=
  ∀ body members, e.kind = .charClass body members → members ≠ []

/-- Alternatives, at least one, and each of them yields a rule. -/
structure Stocked (as : List Alternative) : Prop where
  ne_nil : as ≠ []
  elements : ∀ a ∈ as, ∀ e ∈ a.elements, e.Stocked

variable {g : Grammar} {symbols : Registry} {lhs : SymbolId}

theorem Element.Stocked.ne_nil {e : Element} (he : e.Stocked) {xs : List SymbolId}
    (h : e.symbols? g symbols = .ok xs) : xs ≠ [] := by
  unfold Element.symbols? at h
  split at h
  · split at h
    · obtain rfl := Except.ok.inj h
      exact List.cons_ne_nil _ _
    · exact nomatch h
  · obtain ⟨x, -, rfl⟩ := Except.exists_of_map_eq_ok h
    exact List.cons_ne_nil _ _
  · obtain ⟨x, -, rfl⟩ := Except.exists_of_map_eq_ok h
    exact List.cons_ne_nil _ _
  · next body members hkind =>
    rintro rfl
    exact he body members hkind (List.length_eq_zero_iff.1 (Except.length_of_mapM h).symm)

theorem choiceCount_pos {lists : List (List SymbolId)} (h : ∀ xs ∈ lists, xs ≠ []) :
    0 < choiceCount lists := by
  induction lists with
  | nil => exact Nat.one_pos
  | cons xs lists ih =>
    obtain ⟨hxs, hlists⟩ := List.forall_mem_cons.1 h
    exact Nat.mul_pos (List.length_pos_iff.2 hxs) (ih hlists)

variable {as : List Alternative} {a : Alternative} {rules rules' : Array ShiftReduce.Rule}

theorem Stocked.choiceCount_pos (h : Stocked as) (ha : a ∈ as) {matched : List (List SymbolId)}
    (hm : a.elements.mapM (Element.symbols? g symbols) = .ok matched) : 0 < choiceCount matched :=
  Grammar.choiceCount_pos fun xs hxs => by
    obtain ⟨e, he, hxs⟩ := Except.exists_of_mem_mapM hm xs hxs
    exact (h.elements a ha e he).ne_nil hxs

theorem lt_size_of_addAlternative {limits : Limits} (hstocked : Stocked as) (ha : a ∈ as)
    (h : addAlternative g symbols limits lhs rules a = .ok rules') : rules.size < rules'.size := by
  obtain ⟨action, -, h⟩ := Except.bind_eq_ok h
  obtain ⟨matched, hm, h⟩ := Except.bind_eq_ok h
  have hpos := hstocked.choiceCount_pos ha hm
  dsimp only at h
  split at h
  · exact nomatch h
  split at h
  · exact nomatch h
  obtain rfl := Except.ok.inj h
  simpa using hpos

theorem length_of_mem_choices {lists : List (List SymbolId)} {xs : List SymbolId}
    (h : xs ∈ choices lists) : xs.length = lists.length := by
  induction lists generalizing xs with
  | nil =>
    obtain rfl := List.mem_singleton.1 h
    rfl
  | cons l lists ih =>
    obtain ⟨y, -, h⟩ := List.mem_flatMap.1 h
    obtain ⟨ys, hys, rfl⟩ := List.mem_map.1 h
    exact congrArg Nat.succ (ih hys)

/-- Rules that are within the limits, of which the start rule is not counted alone. -/
structure Room (limits : Limits) (rules : Array ShiftReduce.Rule) : Prop where
  size : rules.size ≤ max 1 limits.rules
  rhs : ∀ rule ∈ rules.toList.tail, rule.rhs.length ≤ limits.rightHandSide

theorem room_append_iff {limits : Limits} {new : List ShiftReduce.Rule} {length : Nat}
    (hpos : 0 < rules.size) (hne : new ≠ []) (hnew : ∀ rule ∈ new, rule.rhs.length = length) :
    Room limits (rules ++ new.toArray) ↔
      (Room limits rules ∧ length ≤ limits.rightHandSide) ∧
        rules.size + new.length ≤ limits.rules := by
  have htail : (rules ++ new.toArray).toList.tail = rules.toList.tail ++ new := by
    rw [Array.toList_append, List.tail_append_of_ne_nil (by simpa using hpos.ne')]
  have hlength : 0 < new.length := List.length_pos_iff.2 hne
  have hsize : (rules ++ new.toArray).size = rules.size + new.length := by simp
  constructor
  · rintro ⟨hmax, hrhs⟩
    rw [htail, List.forall_mem_append] at hrhs
    rw [hsize] at hmax
    obtain ⟨rule, hrule⟩ := List.exists_mem_of_ne_nil new hne
    exact ⟨⟨⟨by omega, hrhs.1⟩, hnew rule hrule ▸ hrhs.2 rule hrule⟩, by omega⟩
  · rintro ⟨⟨hroom, hle⟩, hrules⟩
    refine ⟨by omega, ?_⟩
    rw [htail, List.forall_mem_append]
    exact ⟨hroom.rhs, fun rule hrule => hnew rule hrule ▸ hle⟩

theorem guarded_addAlternative (hstocked : Stocked as) (ha : a ∈ as) (hpos : 0 < rules.size) :
    Guarded (Room · rules) (fun limits => addAlternative g symbols limits lhs rules a) Room := by
  unfold addAlternative
  refine (guarded_const _).bind fun action _ _ => (guarded_const _).bind fun matched _ hm => ?_
  refine .check (.check (guarded_ok fun limits => ?_))
  have hlength : ((choices matched).map fun rhs =>
      (⟨⟨lhs, rhs⟩, action⟩ : ShiftReduce.Rule)).length = choiceCount matched := by
    rw [List.length_map, length_choices]
  have hne := List.length_pos_iff.1 (hlength ▸ hstocked.choiceCount_pos ha hm)
  rw [room_append_iff hpos hne (List.forall_mem_map.2 fun rhs => length_of_mem_choices), hlength,
    Nat.not_lt, Nat.not_lt]

theorem lt_size_of_foldlM (hstocked : Stocked as) {limits : Limits}
    (h : as.foldlM (addAlternative g symbols limits lhs) rules = .ok rules') :
    rules.size < rules'.size :=
  Except.lt_of_foldlM Array.size (fun _ ha _ _ => lt_size_of_addAlternative hstocked ha)
    hstocked.ne_nil h

/-- The rules of all alternatives, one after the other. -/
def addRules (g : Grammar) (symbols : Registry) (limits : Limits) :
    Array ShiftReduce.Rule → Except Error (Array ShiftReduce.Rule) :=
  g.rules.foldlM fun rules rule =>
    rule.alternatives.foldlM (addAlternative g symbols limits rule.lhs) rules

theorem guarded_addRules (hrules : g.rules ≠ [])
    (hstocked : ∀ rule ∈ g.rules, Stocked rule.alternatives) (start : ShiftReduce.Rule) :
    Guarded (fun _ => True) (fun limits => addRules g symbols limits #[start])
      (fun limits rules => rules.size ≤ limits.rules ∧
        ∀ rule ∈ rules.toList.tail, rule.rhs.length ≤ limits.rightHandSide) := by
  have hfold := guarded_foldlM (S := Room) (I := (0 < Array.size ·))
    (f := fun limits rules (rule : Rule) =>
      rule.alternatives.foldlM (addAlternative g symbols limits rule.lhs) rules)
    (fun _ _ _ rule hrule _ h => Nat.zero_lt_of_lt (lt_size_of_foldlM (hstocked rule hrule) h))
    (fun rules rule hrule => guarded_foldlM
      (fun _ _ _ a ha _ h => Nat.zero_lt_of_lt
        (lt_size_of_addAlternative (hstocked rule hrule) ha h))
      fun rules a ha => guarded_addAlternative (hstocked rule hrule) ha)
    (show 0 < #[start].size from Nat.one_pos)
  refine hfold.congr (fun limits => ?_) fun rules limits h limits' => ?_
  · exact iff_of_true ⟨Nat.le_max_left _ _, by simp⟩ trivial
  · have hsize : 1 < rules.size := Except.lt_of_foldlM Array.size
      (fun rule hrule _ _ => lt_size_of_foldlM (hstocked rule hrule)) hrules h
    exact ⟨fun h => ⟨by have := h.size; omega, h.rhs⟩, fun ⟨hle, hrhs⟩ => ⟨by omega, hrhs⟩⟩

/-- **Rules are made within just those limits that they fit**, as long as there is something to make
them of. -/
theorem guarded_rulesOver (hrules : g.rules ≠ [])
    (hstocked : ∀ rule ∈ g.rules, Stocked rule.alternatives) (accept : SymbolId) :
    Guarded (fun _ => True) (fun limits => g.rulesOver symbols limits accept)
      (fun limits rules => rules.size ≤ limits.rules ∧
        ∀ rule ∈ rules.toList.tail, rule.rhs.length ≤ limits.rightHandSide) := by
  refine (guarded_addRules hrules hstocked _).bind fun rules _ _ => ?_
  dsimp only
  split
  · exact guarded_error
  · exact guarded_ok fun _ => Iff.rfl

/-- What can be printed names no empty class. -/
theorem Printable.stocked {name : String} (h : Printable name as) : Stocked as := by
  refine ⟨h.ne_nil, fun a ha e he body members hkind => ?_⟩
  have hspells := ((h.alternatives a ha).elements e he).spells
  rw [hkind] at hspells
  cases hspells with
  | @charClass _ cs _ hne =>
    obtain ⟨c, cs, rfl⟩ := List.exists_cons_of_ne_nil hne
    simp [List.eraseDups_cons]

/-- A grammar that is read from a text has a rule, and all its rules yield some. -/
theorem stocked_of_parse {source : String} {r r' : Registry}
    (h : (parse source).runOn r = (.ok g, r')) :
    g.rules ≠ [] ∧ ∀ rule ∈ g.rules, Stocked rule.alternatives := by
  obtain ⟨⟨ds, hgathers⟩, hprintable⟩ := printable_of_parse h
  refine ⟨fun hnil => ?_, fun rule hrule => (hprintable rule hrule).stocked⟩
  have hstart := hgathers.start
  rw [hnil] at hstart
  exact nomatch hstart

/-- A grammar is flattened where `S'` can be registered and the rules can be made. -/
theorem runOn_flatten_iff {limits : Limits} {r r' : Registry} :
    (g.flatten limits).runOn r = (.ok rules, r') ↔
      ∃ accept, r.addNonterminal augmentedStart = (.ok accept, r') ∧
        g.rulesOver r' limits accept = .ok rules := by
  refine ⟨rulesOver_of_flatten, fun ⟨accept, ha, hrules⟩ => ?_⟩
  have hget : (get : Registering Registry).runOn r' = (.ok r', r') := rfl
  rw [flatten, runOn_bind_ok (runOn_register_ok ha), runOn_bind_ok hget]
  simp only [hrules]
  rfl

end Grammar

/-! ## Automata -/

namespace Automaton

open Registering

variable {registry symbols : Registry} {source : String} {limits limits' : Limits}

/-- A text yields rules where it is read and its grammar can be flattened. -/
theorem runOn_readRules_iff {grammar : Grammar} {rules : Array Rule} :
    (readRules limits source).runOn registry = (.ok (grammar, rules), symbols) ↔
      ∃ r, (Grammar.parse source).runOn registry = (.ok grammar, r) ∧
        (grammar.flatten limits).runOn r = (.ok rules, symbols) := by
  constructor
  · intro h
    obtain ⟨g, r, hg, h⟩ := runOn_bind h
    obtain ⟨rs, r', hrs, h⟩ := runOn_bind h
    obtain ⟨heq, rfl⟩ := runOn_pure h
    obtain ⟨rfl, rfl⟩ := Prod.mk.inj heq
    exact ⟨r, hg, hrs⟩
  · rintro ⟨r, hg, hrs⟩
    exact (runOn_bind_ok hg).trans (runOn_bind_ok hrs)

/-- A text yields its rules within just those limits that they fit. -/
theorem fits_of_readRules {grammar : Grammar} {rules : Array Rule}
    (h : (readRules limits source).runOn registry = (.ok (grammar, rules), symbols)) :
    (rules.size ≤ limits.rules ∧
      ∀ rule ∈ rules.toList.tail, rule.rhs.length ≤ limits.rightHandSide) ∧
    ∀ limits', (rules.size ≤ limits'.rules ∧
        ∀ rule ∈ rules.toList.tail, rule.rhs.length ≤ limits'.rightHandSide) →
      (readRules limits' source).runOn registry = (.ok (grammar, rules), symbols) := by
  obtain ⟨r, hg, hflat⟩ := runOn_readRules_iff.1 h
  obtain ⟨accept, ha, hrules⟩ := Grammar.runOn_flatten_iff.1 hflat
  obtain ⟨hne, hstocked⟩ := Grammar.stocked_of_parse hg
  obtain ⟨hfits, hto⟩ := Grammar.guarded_rulesOver hne hstocked accept limits rules hrules
  refine ⟨hfits trivial, fun limits' hfits' => runOn_readRules_iff.2 ⟨r, hg, ?_⟩⟩
  exact Grammar.runOn_flatten_iff.2 ⟨accept, ha, (hto limits' hfits').2⟩

/-- The labelled grammar of an automaton, within whatever limits it is built. -/
def LabelledBy (a : Automaton) (g : LabelledGrammar) : Prop :=
  ∃ limits c, Collection.canonical a.rules (analyze a.symbols a.rules) limits = .ok c ∧
    LabelledGrammar.build a.rules c (analyze a.symbols a.rules) a.symbols limits = .ok g

/-- An automaton that is not too large.  The start rule is counted as a rule, but the length of its
right-hand side is not limited; the labels of LALR lookaheads are counted with the symbols. -/
structure Within (a : Automaton) (limits : Limits) : Prop where
  symbols : a.symbols.size ≤ limits.symbols
  rules : a.rules.size ≤ limits.rules
  rightHandSide : ∀ rule ∈ a.rules.toList.tail, rule.rhs.length ≤ limits.rightHandSide
  states : a.states.size ≤ limits.states
  labelled (h : a.mode = .lalr) : ∃ g, a.LabelledBy g ∧
    g.rules.length ≤ limits.labelledRules ∧ a.symbols.size + g.labels.size ≤ limits.symbols

variable {a b : Automaton}

/-- An automaton has one labelled grammar. -/
theorem LabelledBy.unique {g g' : LabelledGrammar} (h : a.LabelledBy g) (h' : a.LabelledBy g') :
    g = g' := by
  obtain ⟨limits, c, hc, hg⟩ := h
  obtain ⟨limits', c', hc', hg'⟩ := h'
  let common : Limits := {
    states := max c.states.size c'.states.size
    labelledRules := max g.rules.length g'.rules.length
    symbols := a.symbols.size + max g.labels.size g'.labels.size }
  obtain rfl := (Collection.guarded_canonical a.rules _).unique common hc hc'
    (Nat.le_max_left _ _) (Nat.le_max_right _ _)
  exact (LabelledGrammar.guarded_build a.rules c _ a.symbols).unique common hg hg'
    ⟨Nat.le_max_left _ _, Nat.add_le_add_left (Nat.le_max_left _ _) _⟩
    ⟨Nat.le_max_right _ _, Nat.add_le_add_left (Nat.le_max_right _ _) _⟩

theorem Within.mono (h : a.Within limits) (hle : limits.Le limits') : a.Within limits' where
  symbols := h.symbols.trans hle.symbols
  rules := h.rules.trans hle.rules
  rightHandSide rule hrule := (h.rightHandSide rule hrule).trans hle.rightHandSide
  states := h.states.trans hle.states
  labelled hmode := by
    obtain ⟨g, hg, hrules, hlabels⟩ := h.labelled hmode
    exact ⟨g, hg, hrules.trans hle.labelledRules, hlabels.trans hle.symbols⟩

variable {mode : LookaheadMode}

/-- The lookaheads of an automaton are limited by the labelled grammar that they are found with. -/
theorem Parts.labelled {config : Config} {c : Collection} {lookaheads : Lookaheads}
    {result : Completion.Result} (hp : Parts config registry source a c lookaheads result)
    (hsize : a.symbols.size ≤ config.limits.symbols) (hmode : config.mode = .lalr) :
    ∃ g, a.LabelledBy g ∧ g.rules.length ≤ config.limits.labelledRules ∧
      a.symbols.size + g.labels.size ≤ config.limits.symbols := by
  have h := hp.found
  rw [hmode] at h
  obtain ⟨g, hg, -⟩ := Except.bind_eq_ok h
  obtain ⟨hbound, -⟩ := LabelledGrammar.guarded_build _ _ _ _ _ _ hg
  exact ⟨g, ⟨_, c, hp.canonical, hg⟩, hbound hsize⟩

/-- An automaton has the same parts within all limits that it fits. -/
theorem Parts.of_within {c : Collection} {lookaheads : Lookaheads} {result : Completion.Result}
    (hp : Parts ⟨limits, mode⟩ registry source a c lookaheads result) (hmode : a.mode = mode)
    (h : a.Within limits') : Parts ⟨limits', mode⟩ registry source a c lookaheads result := by
  obtain ⟨-, hread⟩ := fits_of_readRules hp.read
  obtain ⟨-, hcanonical⟩ := Collection.guarded_canonical _ _ _ _ hp.canonical
  obtain ⟨-, hc⟩ := hcanonical limits' (by simpa only [← hp.states] using h.states)
  refine { hp with read := hread limits' ⟨h.rules, h.rightHandSide⟩, canonical := hc, found := ?_ }
  have hfound := hp.found
  cases mode with
  | slr => exact hfound
  | lalr =>
    obtain ⟨g, hg, hl⟩ := Except.bind_eq_ok hfound
    obtain ⟨g', hg', hfits⟩ := h.labelled hmode
    obtain rfl := hg'.unique ⟨limits, c, hp.canonical, hg⟩
    obtain ⟨-, hbuild⟩ := LabelledGrammar.guarded_build _ _ _ _ _ _ hg
    obtain ⟨-, hb⟩ := hbuild limits' hfits
    dsimp only [lookaheadsOf] at hb ⊢
    rw [hb]
    exact hl

/-- **An automaton is generated within just those limits that it fits.** -/
theorem guarded_generate (mode : LookaheadMode) (registry : Registry) (source : String) :
    Guarded (fun _ => True) (fun limits => generate ⟨limits, mode⟩ registry source)
      (fun limits a => a.Within limits) := by
  intro limits a h
  obtain ⟨hsize, hmode, c, lookaheads, result, hp, hfinal⟩ := generate_eq_ok_iff.1 h
  constructor
  · intro _
    obtain ⟨⟨hrules, hrhs⟩, -⟩ := fits_of_readRules hp.read
    obtain ⟨hstates, -⟩ := Collection.guarded_canonical _ _ _ _ hp.canonical
    exact ⟨hsize, hrules, hrhs, hp.states ▸ hstates trivial,
      fun h => hp.labelled hsize (hmode.symm.trans h)⟩
  · intro limits' h'
    exact ⟨trivial, generate_eq_ok_iff.2
      ⟨h'.symbols, hmode, c, lookaheads, result, hp.of_within hmode h', hfinal⟩⟩

/-- **Limits reject what exceeds them, and nothing else.**  Within larger limits the same automaton
is generated.  An automaton that is generated within some limits is the only one that can be
generated within others, and it is generated there if and only if it fits them. -/
theorem generate_iff_within (mode : LookaheadMode) (registry : Registry) (source : String)
    (limits limits' : Limits) :
    (∀ a, limits.Le limits' → generate ⟨limits, mode⟩ registry source = .ok a →
      generate ⟨limits', mode⟩ registry source = .ok a) ∧
    ∀ a, generate ⟨limits', mode⟩ registry source = .ok a →
      (∀ b, generate ⟨limits, mode⟩ registry source = .ok b → b = a) ∧
      ((∃ b, generate ⟨limits, mode⟩ registry source = .ok b) ↔ a.Within limits) := by
  have hguarded := guarded_generate mode registry source
  refine ⟨fun a hle ha => ?_, fun a ha => ?_⟩
  · obtain ⟨hwithin, hto⟩ := hguarded limits a ha
    exact (hto limits' ((hwithin trivial).mono hle)).2
  · have hsame (b : Automaton) (hb : generate ⟨limits, mode⟩ registry source = .ok b) : b = a := by
      obtain ⟨hwithin, -⟩ := hguarded limits b hb
      obtain ⟨hwithin', -⟩ := hguarded limits' a ha
      exact hguarded.unique (limits.sup limits') hb ha
        ((hwithin trivial).mono (limits.le_sup_left limits'))
        ((hwithin' trivial).mono (limits.le_sup_right limits'))
    refine ⟨hsame, fun ⟨b, hb⟩ => ?_, fun hwithin => ?_⟩
    · obtain rfl := hsame b hb
      exact (hguarded limits b hb).1 trivial
    · exact ⟨a, ((hguarded limits' a ha).2 limits hwithin).2⟩

/-- An automaton that just fits its limits: none of them can be smaller by one. -/
theorem generate_iff_within_tight : ∃ (source : String) (limits : Limits) (a : Automaton),
    source = "s = s '+' NUM | NUM;" ∧ limits = ⟨5, 3, 3, 3, 43⟩ ∧ limits.Le {} ∧
    generate ⟨limits, .lalr⟩ .standard source = .ok a ∧
    generate ⟨{}, .lalr⟩ .standard source = .ok a ∧ a.Within limits ∧
    ∀ less ∈ [⟨4, 3, 3, 3, 43⟩, ⟨5, 2, 3, 3, 43⟩, ⟨5, 3, 2, 3, 43⟩, ⟨5, 3, 3, 2, 43⟩,
      ⟨5, 3, 3, 3, 42⟩], ¬ a.Within less := by
  let source := "s = s '+' NUM | NUM;"
  let limits : Limits := ⟨5, 3, 3, 3, 43⟩
  have hle : limits.Le {} := by constructor <;> decide
  have htight : (generate ⟨limits, .lalr⟩ .standard source).toOption.any (fun _ => true) =
      true := by
    decide +kernel
  obtain ⟨a, ha, -⟩ := Except.exists_of_any_toOption htight
  obtain ⟨hlarger, hwithin⟩ := generate_iff_within .lalr .standard source limits {}
  have hdefault := hlarger a hle ha
  refine ⟨source, limits, a, rfl, rfl, hle, ha, hdefault, (hwithin a hdefault).2.1 ⟨a, ha⟩,
    fun less hless h => ?_⟩
  have hrejected : ∀ less ∈ [(⟨4, 3, 3, 3, 43⟩ : Limits), ⟨5, 2, 3, 3, 43⟩, ⟨5, 3, 2, 3, 43⟩,
      ⟨5, 3, 3, 2, 43⟩, ⟨5, 3, 3, 3, 42⟩],
      (generate ⟨less, .lalr⟩ .standard source).toOption.isNone = true := by decide +kernel
  obtain ⟨-, hless'⟩ := generate_iff_within .lalr .standard source less {}
  obtain ⟨b, hb⟩ := (hless' a hdefault).2.2 h
  have hnone := hrejected less hless
  rw [hb] at hnone
  exact nomatch hnone

end Automaton

end ShiftReduce

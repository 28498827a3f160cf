import Mathlib.Logic.Relation
import Mathlib.Tactic.Tauto
import ShiftReduce.Production

/-!
# Proofs/Derivation — what productions derive

A derivation step rewrites one symbol of a sentential form.  Two questions about derivations are
asked by every table construction, and each has an inductive answer that follows the symbols of a
form from the left:

* `Vanishes P xs` — `xs` derives the empty form (`vanishes_iff_derives`);
* `Begins P terminalCount t xs` — `xs` derives a form that begins with the terminal `t`
  (`begins_iff_derives`).

`Follows` is the least solution of the follow-set inequalities, again over symbols and not over
derivations; `follows_iff_derives` says which derived forms it stands for.
-/

namespace ShiftReduce.Derivation

variable {P : List Production} {terminalCount : Nat}

/-! ## Derivations -/

/-- Rewrites one occurrence of a left-hand side. -/
inductive Step (P : List Production) : List SymbolId → List SymbolId → Prop
  | rewrite (before behind : List SymbolId) {p : Production} (h : p ∈ P) :
    Step P (before ++ p.lhs :: behind) (before ++ (p.rhs ++ behind))

/-- Rewrites any number of times. -/
def Derives (P : List Production) : List SymbolId → List SymbolId → Prop :=
  Relation.ReflTransGen (Step P)

theorem Derives.refl (xs : List SymbolId) : Derives P xs xs := Relation.ReflTransGen.refl

theorem Derives.trans {xs ys zs : List SymbolId} (h : Derives P xs ys) (h' : Derives P ys zs) :
    Derives P xs zs := Relation.ReflTransGen.trans h h'

theorem Step.append_left {xs ys : List SymbolId} (h : Step P xs ys) (zs : List SymbolId) :
    Step P (zs ++ xs) (zs ++ ys) := by
  obtain ⟨before, behind, hp⟩ := h
  simpa using Step.rewrite (zs ++ before) behind hp

theorem Step.append_right {xs ys : List SymbolId} (h : Step P xs ys) (zs : List SymbolId) :
    Step P (xs ++ zs) (ys ++ zs) := by
  obtain ⟨before, behind, hp⟩ := h
  simpa using Step.rewrite before (behind ++ zs) hp

/-- What is derived is derived behind anything else. -/
theorem Derives.append_left {xs ys : List SymbolId} (h : Derives P xs ys) (zs : List SymbolId) :
    Derives P (zs ++ xs) (zs ++ ys) :=
  Relation.ReflTransGen.lift (r := Step P) (p := Step P) (zs ++ ·)
    (fun _ _ hs => hs.append_left zs) _ _ h

/-- So it is before anything else. -/
theorem Derives.append_right {xs ys : List SymbolId} (h : Derives P xs ys) (zs : List SymbolId) :
    Derives P (xs ++ zs) (ys ++ zs) :=
  Relation.ReflTransGen.lift (r := Step P) (p := Step P) (· ++ zs)
    (fun _ _ hs => hs.append_right zs) _ _ h

/-- Two derivations run beside each other. -/
theorem Derives.append {xs ys xs' ys' : List SymbolId} (h : Derives P xs xs')
    (h' : Derives P ys ys') : Derives P (xs ++ ys) (xs' ++ ys') :=
  (h.append_right ys).trans (h'.append_left xs')

/-- A symbol derives the right-hand sides of its productions. -/
theorem Derives.of_mem {p : Production} (h : p ∈ P) : Derives P [p.lhs] p.rhs := by
  have hs : Step P [p.lhs] p.rhs := by simpa using Step.rewrite [] [] h
  exact Relation.ReflTransGen.single hs

/-- A symbol derives itself and what its productions derive. -/
theorem Derives.eq_or_exists {x : SymbolId} {ys : List SymbolId} (h : Derives P [x] ys) :
    ys = [x] ∨ ∃ p ∈ P, p.lhs = x ∧ Derives P p.rhs ys := by
  rcases Relation.ReflTransGen.cases_head h with rfl | ⟨zs, hs, h⟩
  · exact .inl rfl
  generalize hx : [x] = xs at hs
  obtain ⟨before, behind, hp⟩ := hs
  rcases List.singleton_eq_append_iff.1 hx with ⟨rfl, hx⟩ | ⟨-, hx⟩
  · obtain ⟨rfl, rfl⟩ := List.cons.inj hx
    rw [List.nil_append, List.append_nil] at h
    exact .inr ⟨_, hp, rfl, h⟩
  · exact nomatch hx

/-- Renaming symbols takes derivations to derivations, if it takes productions to productions. -/
theorem Derives.map {P' : List Production} {f : SymbolId → SymbolId}
    (hf : ∀ p ∈ P, ⟨f p.lhs, p.rhs.map f⟩ ∈ P') {xs ys : List SymbolId} (h : Derives P xs ys) :
    Derives P' (xs.map f) (ys.map f) := by
  refine Relation.ReflTransGen.lift (List.map f) (fun xs ys hs => ?_) _ _ h
  obtain ⟨before, behind, hp⟩ := hs
  simpa [Function.onFun] using Step.rewrite (before.map f) (behind.map f) (hf _ hp)

/-! ## Rightmost derivations -/

/-- A rightmost derivation by the given productions, each applied to the last nonterminal. -/
inductive Rightmost (rules : Array Rule) (terminalCount : Nat) :
    List SymbolId → List RuleId → List SymbolId → Prop
  | refl (xs : List SymbolId) : Rightmost rules terminalCount xs [] xs
  | step (before behind : List SymbolId) {r : RuleId} {rule : Rule} {rs : List RuleId}
    {zs : List SymbolId} (hr : rules[r]? = some rule) (hb : ∀ x ∈ behind, x < terminalCount)
    (h : Rightmost rules terminalCount (before ++ (rule.rhs ++ behind)) rs zs) :
    Rightmost rules terminalCount (before ++ rule.lhs :: behind) (r :: rs) zs

/-- The rules of an array as productions. -/
def productions (rules : Array Rule) : List Production := rules.toList.map Rule.toProduction

/-- The productions are those of the rules, in order. -/
theorem mem_productions {rules : Array Rule} {p : Production} :
    p ∈ productions rules ↔
      ∃ (r : RuleId) (rule : Rule), rules[r]? = some rule ∧ rule.toProduction = p := by
  rw [productions, List.mem_map]
  constructor
  · rintro ⟨rule, h, rfl⟩
    obtain ⟨r, hr⟩ := List.mem_iff_getElem?.1 h
    exact ⟨r, rule, by simpa using hr, rfl⟩
  · rintro ⟨r, rule, hr, rfl⟩
    exact ⟨rule, by simpa using Array.mem_of_getElem? hr, rfl⟩

theorem mem_productions_of_getElem? {rules : Array Rule} {r : RuleId} {rule : Rule}
    (h : rules[r]? = some rule) : rule.toProduction ∈ productions rules :=
  mem_productions.2 ⟨r, rule, h, rfl⟩

/-- A rightmost derivation is a derivation. -/
theorem Rightmost.derives {rules : Array Rule} {xs ys : List SymbolId} {rs : List RuleId}
    (h : Rightmost rules terminalCount xs rs ys) : Derives (productions rules) xs ys := by
  induction h with
  | refl xs => exact .refl xs
  | step before behind hr hb h ih =>
    exact Relation.ReflTransGen.head
      (Step.rewrite before behind (mem_productions_of_getElem? hr)) ih

/-- Rightmost derivations compose. -/
theorem Rightmost.trans {rules : Array Rule} {xs ys zs : List SymbolId} {rs rs' : List RuleId}
    (h : Rightmost rules terminalCount xs rs ys) (h' : Rightmost rules terminalCount ys rs' zs) :
    Rightmost rules terminalCount xs (rs ++ rs') zs := by
  induction h with
  | refl => exact h'
  | step before behind hr hb h ih => exact .step before behind hr hb (ih h')

/-! ## Vanishing forms -/

/-- The form derives the empty one. -/
inductive Vanishes (P : List Production) : List SymbolId → Prop
  | nil : Vanishes P []
  | cons {p : Production} {xs : List SymbolId} (hp : p ∈ P) (h : Vanishes P p.rhs)
    (hs : Vanishes P xs) : Vanishes P (p.lhs :: xs)

/-- A left-hand side vanishes with its right-hand side. -/
theorem Vanishes.of_mem {p : Production} (hp : p ∈ P) (h : Vanishes P p.rhs) :
    Vanishes P [p.lhs] := .cons hp h .nil

theorem vanishes_cons {x : SymbolId} {xs : List SymbolId} :
    Vanishes P (x :: xs) ↔ Vanishes P [x] ∧ Vanishes P xs := by
  constructor
  · rintro (_ | ⟨hp, h, hs⟩)
    exact ⟨.of_mem hp h, hs⟩
  · rintro ⟨_ | ⟨hp, h, -⟩, hs⟩
    exact .cons hp h hs

/-- A form vanishes if and only if all its symbols do. -/
theorem vanishes_iff_forall (xs : List SymbolId) :
    Vanishes P xs ↔ ∀ x ∈ xs, Vanishes P [x] := by
  induction xs with
  | nil => simp [Vanishes.nil]
  | cons x xs ih => rw [vanishes_cons, ih, List.forall_mem_cons]

/-- A sequence vanishes if each of its parts does. -/
theorem vanishes_append {xs ys : List SymbolId} :
    Vanishes P (xs ++ ys) ↔ Vanishes P xs ∧ Vanishes P ys := by
  rw [vanishes_iff_forall, vanishes_iff_forall xs, vanishes_iff_forall ys,
    List.forall_mem_append]

/-- What vanishes derives the empty string. -/
theorem Vanishes.derives {xs : List SymbolId} (h : Vanishes P xs) : Derives P xs [] := by
  induction h with
  | nil => exact .refl []
  | cons hp h hs ih ihs =>
    exact ((Derives.of_mem hp).trans ih).append ihs

/-- **A form vanishes if and only if it derives the empty form.** -/
theorem vanishes_iff_derives {xs : List SymbolId} : Vanishes P xs ↔ Derives P xs [] := by
  refine ⟨Vanishes.derives, fun h => ?_⟩
  induction h using Relation.ReflTransGen.head_induction_on with
  | refl => exact .nil
  | head hs _ ih =>
    obtain ⟨before, behind, hp⟩ := hs
    simp only [vanishes_append] at ih
    rw [vanishes_append, vanishes_cons]
    exact ⟨ih.1, .of_mem hp ih.2.1, ih.2.2⟩

/-- What derives something that vanishes vanishes itself. -/
theorem Vanishes.of_derives {xs ys : List SymbolId} (h : Vanishes P ys) (hd : Derives P xs ys) :
    Vanishes P xs := vanishes_iff_derives.2 (hd.trans h.derives)

/-! ## First terminals -/

/-- The form derives one that begins with the terminal `t`. -/
inductive Begins (P : List Production) (terminalCount : Nat) (t : SymbolId) :
    List SymbolId → Prop
  | terminal (h : t < terminalCount) (xs : List SymbolId) : Begins P terminalCount t (t :: xs)
  | rule {p : Production} (hp : p ∈ P) (h : Begins P terminalCount t p.rhs) (xs : List SymbolId) :
    Begins P terminalCount t (p.lhs :: xs)
  | behind {x : SymbolId} {xs : List SymbolId} (hx : Vanishes P [x])
    (h : Begins P terminalCount t xs) : Begins P terminalCount t (x :: xs)

variable {t : SymbolId}

theorem Begins.lt {xs : List SymbolId} (h : Begins P terminalCount t xs) : t < terminalCount := by
  induction h with
  | terminal h => exact h
  | rule _ _ _ ih => exact ih
  | behind _ _ ih => exact ih

theorem not_begins_nil : ¬ Begins P terminalCount t [] := nofun

theorem begins_cons {x : SymbolId} {xs : List SymbolId} :
    Begins P terminalCount t (x :: xs) ↔
      Begins P terminalCount t [x] ∨ Vanishes P [x] ∧ Begins P terminalCount t xs := by
  constructor
  · rintro (⟨h⟩ | ⟨hp, h⟩ | ⟨hx, h⟩)
    · exact .inl (.terminal h [])
    · exact .inl (.rule hp h [])
    · exact .inr ⟨hx, h⟩
  · rintro ((⟨h⟩ | ⟨hp, h⟩ | ⟨-, h⟩) | ⟨hx, h⟩)
    · exact .terminal h xs
    · exact .rule hp h xs
    · exact absurd h not_begins_nil
    · exact .behind hx h

/-- What begins two parts begins the first, or the second if the first can vanish. -/
theorem begins_append {xs ys : List SymbolId} :
    Begins P terminalCount t (xs ++ ys) ↔
      Begins P terminalCount t xs ∨ Vanishes P xs ∧ Begins P terminalCount t ys := by
  induction xs with
  | nil => simp [not_begins_nil, Vanishes.nil]
  | cons x xs ih =>
    have hbegins : Begins P terminalCount t (x :: xs) ↔ _ := begins_cons
    have hvanishes : Vanishes P (x :: xs) ↔ _ := vanishes_cons
    rw [List.cons_append, begins_cons, ih, hbegins, hvanishes]
    clear hbegins hvanishes
    tauto

/-- A terminal begins with itself alone. -/
theorem begins_singleton_of_lt (hP : ∀ p ∈ P, terminalCount ≤ p.lhs) {x : SymbolId}
    (hx : x < terminalCount) : Begins P terminalCount t [x] ↔ t = x := by
  constructor
  · rintro (⟨h⟩ | ⟨hp, h⟩ | ⟨-, h⟩)
    · rfl
    · exact absurd (hP _ hp) (Nat.not_le_of_lt hx)
    · exact absurd h not_begins_nil
  · rintro rfl
    exact .terminal hx []

/-- What begins a sequence stands in front of something that it derives. -/
theorem Begins.derives {xs : List SymbolId} (h : Begins P terminalCount t xs) :
    ∃ ys, Derives P xs (t :: ys) := by
  induction h with
  | terminal _ xs => exact ⟨xs, .refl _⟩
  | rule hp _ xs ih =>
    obtain ⟨ys, hys⟩ := ih
    exact ⟨ys ++ xs, ((Derives.of_mem hp).trans hys).append_right xs⟩
  | @behind x xs hx _ ih =>
    obtain ⟨ys, hys⟩ := ih
    exact ⟨ys, (hx.derives.append_right xs).trans hys⟩

/-- **The terminal begins the form if and only if the form derives one that begins with it.** -/
theorem begins_iff_derives (ht : t < terminalCount) {xs : List SymbolId} :
    Begins P terminalCount t xs ↔ ∃ ys, Derives P xs (t :: ys) := by
  refine ⟨Begins.derives, ?_⟩
  rintro ⟨ys, h⟩
  induction h using Relation.ReflTransGen.head_induction_on with
  | refl => exact .terminal ht ys
  | head hs _ ih =>
    obtain ⟨before, behind, hp⟩ := hs
    rw [begins_append] at ih ⊢
    rcases ih with ih | ⟨hb, ih⟩
    · exact .inl ih
    · refine .inr ⟨hb, ?_⟩
      rcases begins_append.1 ih with ih | ⟨hv, ih⟩
      · exact .rule hp ih behind
      · exact .behind (.of_mem hp hv) ih

/-- What begins something derived begins what it is derived from. -/
theorem Begins.of_derives {xs ys : List SymbolId} (h : Begins P terminalCount t ys)
    (hd : Derives P xs ys) : Begins P terminalCount t xs := by
  obtain ⟨zs, hzs⟩ := h.derives
  exact (begins_iff_derives h.lt).2 ⟨zs, hd.trans hzs⟩

/-- A symbol that is only rewritten to forms with itself in front never vanishes. -/
theorem not_vanishes_of_head {x : SymbolId} (hP : ∀ p ∈ P, p.lhs = x → p.rhs.head? = some x)
    {xs : List SymbolId} (hx : xs.head? = some x) : ¬ Vanishes P xs := by
  intro h
  induction h with
  | nil => exact nomatch hx
  | cons hp _ _ ih => exact ih (hP _ hp (Option.some.inj hx))

/-- Nothing begins a form with such a symbol in front. -/
theorem not_begins_of_head {x : SymbolId} (hle : terminalCount ≤ x)
    (hP : ∀ p ∈ P, p.lhs = x → p.rhs.head? = some x) {xs : List SymbolId}
    (hx : xs.head? = some x) : ¬ Begins P terminalCount t xs := by
  intro h
  induction h with
  | terminal ht => exact absurd (Option.some.inj hx ▸ hle) (Nat.not_le_of_lt ht)
  | rule hp _ _ ih => exact ih (hP _ hp (Option.some.inj hx))
  | behind hv _ => exact not_vanishes_of_head hP (by simpa using hx) hv

/-! ## Following terminals -/

/-- The terminals that follow a nonterminal: the least solution of the follow-set inequalities. -/
inductive Follows (P : List Production) (terminalCount : Nat) : SymbolId → SymbolId → Prop
  | start {p : Production} (h : P.head? = some p) :
    Follows P terminalCount p.lhs SymbolId.endOfInput
  | next {p : Production} (hp : p ∈ P) {before behind : List SymbolId} {x t : SymbolId}
    (h : p.rhs = before ++ x :: behind) (hx : terminalCount ≤ x)
    (ht : Begins P terminalCount t behind) : Follows P terminalCount x t
  | last {p : Production} (hp : p ∈ P) {before behind : List SymbolId} {x t : SymbolId}
    (h : p.rhs = before ++ x :: behind) (hx : terminalCount ≤ x) (hb : Vanishes P behind)
    (ht : Follows P terminalCount p.lhs t) : Follows P terminalCount x t

theorem Follows.lt (hend : SymbolId.endOfInput < terminalCount) {x : SymbolId}
    (h : Follows P terminalCount x t) : t < terminalCount := by
  induction h with
  | start => exact hend
  | next _ _ _ ht => exact ht.lt
  | last _ _ _ _ _ ih => exact ih

/-- An occurrence in a form of two parts is in one of them. -/
theorem mem_append_cases {α : Type} {xs ys before rest : List α} {a : α}
    (h : xs ++ ys = before ++ a :: rest) :
    (∃ behind, xs = before ++ a :: behind ∧ rest = behind ++ ys) ∨
      ∃ front, before = xs ++ front ∧ ys = front ++ a :: rest := by
  rcases List.append_eq_append_iff.1 h with ⟨front, hb, hy⟩ | ⟨behind, hx, hr⟩
  · exact .inr ⟨front, hb, hy⟩
  · cases behind with
    | nil => exact .inr ⟨[], by simpa using hx.symm, hr.symm⟩
    | cons b behind =>
      obtain ⟨rfl, rfl⟩ := List.cons.inj hr
      exact .inl ⟨behind, hx, rfl⟩

/-- **Every occurrence in a derived form** is followed by what begins the rest behind it, and, if
that rest vanishes, by what follows the symbol that the form is derived from. -/
theorem follows_of_occurrence (hP : ∀ p ∈ P, terminalCount ≤ p.lhs) {b : SymbolId}
    {xs : List SymbolId} (h : Derives P [b] xs) :
    ∀ (before rest : List SymbolId) (a : SymbolId), xs = before ++ a :: rest → terminalCount ≤ a →
      (∀ t, Begins P terminalCount t rest → Follows P terminalCount a t) ∧
        (Vanishes P rest → ∀ t, Follows P terminalCount b t → Follows P terminalCount a t) := by
  induction h with
  | refl =>
    intro before rest a hsplit _
    obtain ⟨rfl, rfl, rfl⟩ : before = [] ∧ a = b ∧ rest = [] := by
      cases before <;> simp_all
    exact ⟨fun t ht => absurd ht not_begins_nil, fun _ t ht => ht⟩
  | tail _ hs ih =>
    obtain @⟨front, behind, p, hp⟩ := hs
    intro before rest a hsplit ha
    rcases mem_append_cases hsplit with ⟨mid, rfl, rfl⟩ | ⟨before, rfl, hmid⟩
    · -- it stands before what was rewritten
      obtain ⟨hb, hv⟩ := ih before (mid ++ p.lhs :: behind) a (by simp) ha
      have hd : Derives P (mid ++ p.lhs :: behind) (mid ++ (p.rhs ++ behind)) :=
        Relation.ReflTransGen.single (.rewrite mid behind hp)
      exact ⟨fun t ht => hb t (ht.of_derives hd), fun hrest => hv (hrest.of_derives hd)⟩
    rcases mem_append_cases hmid with ⟨rest, hrhs, rfl⟩ | ⟨mid, rfl, rfl⟩
    · -- it comes from the production
      obtain ⟨hb, hv⟩ := ih front behind p.lhs rfl (hP p hp)
      refine ⟨fun t ht => ?_, fun hrest t ht => ?_⟩
      · rcases begins_append.1 ht with ht | ⟨hrest, ht⟩
        · exact .next hp hrhs ha ht
        · exact .last hp hrhs ha hrest (hb t ht)
      · obtain ⟨hrest, hbehind⟩ := vanishes_append.1 hrest
        exact .last hp hrhs ha hrest (hv hbehind t ht)
    · exact ih (front ++ p.lhs :: mid) rest a (by simp) ha

/-- **What follows a nonterminal** stands behind it in a form that some nonterminal derives, or is
the end of the input, where the nonterminal ends a form that the first left-hand side derives. -/
theorem follows_iff_derives (hP : ∀ p ∈ P, terminalCount ≤ p.lhs) {a : SymbolId}
    (ha : terminalCount ≤ a) (ht : t < terminalCount) :
    Follows P terminalCount a t ↔
      (∃ b before behind, terminalCount ≤ b ∧
        Relation.TransGen (Step P) [b] (before ++ a :: t :: behind)) ∨
      t = SymbolId.endOfInput ∧
        ∃ p before, P.head? = some p ∧ Derives P [p.lhs] (before ++ [a]) := by
  constructor
  · intro h
    induction h with
    | @start p hp => exact .inr ⟨rfl, p, [], hp, .refl _⟩
    | @next p hp before behind x t hrhs _ hbegins =>
      obtain ⟨ys, hys⟩ := hbegins.derives
      refine .inl ⟨p.lhs, before, ys, hP p hp, ?_⟩
      have hs : Step P [p.lhs] (before ++ x :: behind) := by
        simpa [hrhs] using Step.rewrite [] [] hp
      have hd : Derives P (before ++ x :: behind) (before ++ x :: t :: ys) := by
        simpa using hys.append_left (before ++ [x])
      exact .head' hs hd
    | @last p hp before behind x t hrhs _ hvanishes _ ih =>
      have hd : Derives P [p.lhs] (before ++ [x]) := by
        have hbehind : Derives P (before ++ x :: behind) (before ++ [x]) := by
          simpa using hvanishes.derives.append_left (before ++ [x])
        exact (hrhs ▸ Derives.of_mem hp).trans hbehind
      rcases ih (hP p hp) ht with ⟨b, front, rest, hb, hr⟩ | ⟨rfl, q, front, hq, hr⟩
      · have hrest : Derives P (front ++ p.lhs :: t :: rest)
            ((front ++ before) ++ x :: t :: rest) := by
          simpa using (hd.append_right (t :: rest)).append_left front
        exact .inl ⟨b, front ++ before, rest, hb, hr.trans_left hrest⟩
      · have hfront : Derives P (front ++ [p.lhs]) ((front ++ before) ++ [x]) := by
          simpa using hd.append_left front
        exact .inr ⟨rfl, q, front ++ before, hq, hr.trans hfront⟩
  · rintro (⟨b, before, behind, -, hr⟩ | ⟨rfl, p, before, hp, hd⟩)
    · exact (follows_of_occurrence hP hr.to_reflTransGen before (t :: behind) a rfl ha).1 t
        (.terminal ht behind)
    · exact (follows_of_occurrence hP hd before [] a rfl ha).2 .nil _ (.start hp)

end ShiftReduce.Derivation

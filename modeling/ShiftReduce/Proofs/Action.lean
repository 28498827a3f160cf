import ShiftReduce.Proofs.Rules

/-!
# Proofs/Action — actions fit the rules they belong to

An action fails in two ways: because a child is not what it asks for, which only a run can tell, or
because the action itself does not fit its rule (`Action.Problem.Misfit`).  A grammar text is
checked for the second when it is read, so every rule of an automaton has an action that fits it
(`fitting_of_readRules`), and such an action never fails in that way (`Fits.not_misfit`).
-/

namespace ShiftReduce

namespace Action

/-- A problem that the action has with its rule, whatever the children are. -/
def Problem.Misfit : Problem → Prop
  | .indexOutOfRange .. | .arity .. => True
  | .missingChild _ | .expectedOperator _ | .expectedIdent _ => False

/-- The action is one for right-hand sides of the size. -/
structure Fits (a : Action) (size : Nat) : Prop where
  lt {i : Nat} (h : i ∈ a.indexes) : i < size
  arity {kind : Kind} (h : a.kind = some kind) : kind.arity.contains a.indexes.length

/-- Forwarding names no children and builds nothing, so it fits every rule. -/
theorem fits_forward (size : Nat) : forward.Fits size := ⟨nofun, nofun⟩

/-! ## Taking children -/

namespace Taking

variable {α β : Type} {n i : Nat}

/-- From `n` children the computation leaves as many places, and if it fails then for a child. -/
def Safe (n : Nat) (m : Taking α) : Prop :=
  ∀ children, children.length = n → match m children with
    | .ok (_, rest) => rest.length = n
    | .error problem => ¬ problem.Misfit

theorem safe_pure (a : α) : Safe n (pure a) := fun _ h => h

theorem safe_throw {problem : Problem} (h : ¬ problem.Misfit) :
    Safe n (throw problem : Taking α) := fun _ _ => h

/-- Safe computations are safe one after the other, as the first keeps the number of places. -/
theorem Safe.bind {m : Taking α} {f : α → Taking β} (hm : Safe n m) (hf : ∀ a, Safe n (f a)) :
    Safe n (m >>= f) := by
  intro children hlength
  have hm := hm children hlength
  have hbind : (m >>= f) children = m children >>= fun p => f p.1 p.2 := rfl
  rw [hbind]
  cases hchildren : m children with
  | error problem =>
    rw [hchildren] at hm
    exact hm
  | ok p =>
    rw [hchildren] at hm
    exact hf p.1 p.2 hm

/-- Taking a child leaves its place, so later indexes still fall inside. -/
theorem safe_optional (hi : i < n) : Safe n (optional i) := by
  intro children hlength
  subst hlength
  simp [optional, List.getElem?_eq_getElem hi]

/-- A place that is empty already is a missing child, which is no misfit. -/
theorem safe_required (hi : i < n) : Safe n (required i) :=
  (safe_optional hi).bind fun
    | some node => safe_pure node
    | none => safe_throw id

theorem safe_operator (hi : i < n) : Safe n (operator i) :=
  (safe_required hi).bind fun node => by
    split
    · exact safe_pure _
    · exact safe_throw id

theorem safe_ident (hi : i < n) : Safe n (ident i) :=
  (safe_required hi).bind fun node => by
    split
    · exact safe_pure _
    · exact safe_throw id

theorem safe_nodes (hi : i < n) : Safe n (nodes i) :=
  (safe_optional hi).bind fun node => by split <;> exact safe_pure _

theorem safe_idents (hi : i < n) : Safe n (idents i) :=
  (safe_nodes hi).bind fun nodes => by
    split
    · exact safe_pure _
    · exact safe_throw id

/-- Taking children one by one is safe if taking each of them is. -/
theorem safe_mapM {f : Nat → Taking α} {is : List Nat} (h : ∀ i ∈ is, Safe n (f i)) :
    Safe n (is.mapM f) := by
  induction is with
  | nil => exact safe_pure []
  | cons i is ih =>
    rw [List.mapM_cons]
    exact (h i List.mem_cons_self).bind fun _ =>
      (ih fun i hi => h i (List.mem_cons_of_mem _ hi)).bind fun _ => safe_pure _

end Taking

/-! ## Building nodes -/

open Taking

/-- A constructor with no optional position takes one number of children. -/
theorem Arity.eq_of_contains {n k : Nat} (h : (⟨n, n⟩ : Arity).contains k) : k = n := by
  simp only [contains, Bool.and_eq_true, decide_eq_true_eq] at h
  omega

/-- A constructor with an optional position takes two numbers of children. -/
theorem Arity.eq_or_eq_of_contains {n k : Nat} (h : (⟨n, n + 1⟩ : Arity).contains k) :
    k = n ∨ k = n + 1 := by
  simp only [contains, Bool.and_eq_true, decide_eq_true_eq] at h
  omega

/-- **A constructor with as many positions as it takes builds its node, or fails for a child.** -/
theorem safe_build {kind : Kind} {is : List Nat} {n : Nat} (location : Location)
    (harity : kind.arity.contains is.length) (hlt : ∀ i ∈ is, i < n) :
    Safe n (build kind is location) := by
  cases kind with
  | unary =>
    match is, Arity.eq_of_contains harity with
    | [i, j], _ =>
      exact (safe_operator (hlt i (by simp))).bind fun _ =>
        (safe_required (hlt j (by simp))).bind fun _ => safe_pure _
  | binary =>
    match is, Arity.eq_of_contains harity with
    | [i, j, k], _ =>
      exact (safe_required (hlt i (by simp))).bind fun _ =>
        (safe_operator (hlt j (by simp))).bind fun _ =>
          (safe_required (hlt k (by simp))).bind fun _ => safe_pure _
  | assign | whileLoop =>
    match is, Arity.eq_of_contains harity with
    | [i, j], _ =>
      exact (safe_required (hlt i (by simp))).bind fun _ =>
        (safe_required (hlt j (by simp))).bind fun _ => safe_pure _
  | «variable» =>
    match is, Arity.eq_or_eq_of_contains harity with
    | [i], _ => exact (safe_ident (hlt i (by simp))).bind fun _ => safe_pure _
    | [i, j], _ =>
      exact (safe_ident (hlt i (by simp))).bind fun _ =>
        (safe_optional (hlt j (by simp))).bind fun _ => safe_pure _
  | conditional =>
    match is, Arity.eq_or_eq_of_contains harity with
    | [i, j], _ =>
      exact (safe_required (hlt i (by simp))).bind fun _ =>
        (safe_required (hlt j (by simp))).bind fun _ => safe_pure _
    | [i, j, k], _ =>
      exact (safe_required (hlt i (by simp))).bind fun _ =>
        (safe_required (hlt j (by simp))).bind fun _ =>
          (safe_optional (hlt k (by simp))).bind fun _ => safe_pure _
  | forLoop =>
    match is, Arity.eq_or_eq_of_contains harity with
    | [i, j, k, l], _ =>
      exact (safe_ident (hlt i (by simp))).bind fun _ =>
        (safe_required (hlt j (by simp))).bind fun _ =>
          (safe_required (hlt k (by simp))).bind fun _ =>
            (safe_required (hlt l (by simp))).bind fun _ => safe_pure _
    | [i, j, s, k, l], _ =>
      exact (safe_ident (hlt i (by simp))).bind fun _ =>
        (safe_required (hlt j (by simp))).bind fun _ =>
          (safe_required (hlt s (by simp))).bind fun _ =>
            (safe_required (hlt k (by simp))).bind fun _ =>
              (safe_required (hlt l (by simp))).bind fun _ => safe_pure _
  | call | record =>
    match is, Arity.eq_or_eq_of_contains harity with
    | [i], _ => exact (safe_ident (hlt i (by simp))).bind fun _ => safe_pure _
    | [i, j], _ =>
      exact (safe_ident (hlt i (by simp))).bind fun _ =>
        (safe_nodes (hlt j (by simp))).bind fun _ => safe_pure _
  | function =>
    match is, Arity.eq_or_eq_of_contains harity with
    | [i, j], _ =>
      exact (safe_ident (hlt i (by simp))).bind fun _ =>
        (safe_required (hlt j (by simp))).bind fun _ => safe_pure _
    | [i, j, k], _ =>
      exact (safe_ident (hlt i (by simp))).bind fun _ =>
        (safe_idents (hlt j (by simp))).bind fun _ =>
          (safe_required (hlt k (by simp))).bind fun _ => safe_pure _
  | block => exact (safe_mapM fun i hi => safe_nodes (hlt i hi)).bind fun _ => safe_pure _

/-- A safe computation that starts from all children fails for one of them only. -/
theorem Taking.Safe.not_misfit {α : Type} {m : Taking α} {children : List (Option Ast)}
    {problem : Problem} (h : Safe children.length m) (he : m.run' children = .error problem) :
    ¬ problem.Misfit := by
  have hm := h children rfl
  have hrun : m.run' children = Prod.fst <$> m children := rfl
  cases hchildren : m children with
  | ok p =>
    rw [hrun, hchildren] at he
    exact nomatch he
  | error problem' =>
    rw [hrun, hchildren] at he
    obtain rfl := Except.error.inj he
    rwa [hchildren] at hm

/-- **An action that fits a rule fails for a child only.** -/
theorem Fits.not_misfit {a : Action} {children : List (Option Ast)} {location : Location}
    {e : Error} (hfits : a.Fits children.length) (h : a.reduce children location = .error e) :
    ¬ e.problem.Misfit := by
  match a, children with
  | ⟨none, []⟩, [] => exact nomatch h
  | ⟨none, []⟩, child :: children =>
    have h : ((optional 0).run' (child :: children)).mapError (Error.mk none) = .error e := h
    obtain ⟨problem, hrun, rfl⟩ := Except.exists_of_mapError_eq_error h
    exact Safe.not_misfit (safe_optional (Nat.succ_pos _)) hrun
  | ⟨none, i :: is⟩, children =>
    have h : ((optional i).run' children).mapError (Error.mk none) = .error e := h
    obtain ⟨problem, hrun, rfl⟩ := Except.exists_of_mapError_eq_error h
    exact Safe.not_misfit (safe_optional (hfits.lt List.mem_cons_self)) hrun
  | ⟨some kind, is⟩, children =>
    let place := (children.findSome? fun child => child.map Ast.location).getD location
    have h : (some <$> (build kind is place).run' children).mapError (Error.mk (some kind)) =
      .error e := h
    obtain ⟨problem, hrun, rfl⟩ := Except.exists_of_mapError_eq_error h
    refine (safe_build place (hfits.arity rfl) fun i hi => hfits.lt hi).not_misfit ?_
    cases hm : (build kind is place).run' children with
    | error problem' =>
      rw [hm] at hrun
      exact congrArg Except.error (Except.error.inj hrun)
    | ok node =>
      rw [hm] at hrun
      exact nomatch hrun

end Action

/-! ## The actions of a text -/

namespace Grammar

open Registering

/-- The check of a written action asks for what fitting means: indexes below the size, and as many
of them as the constructor takes. -/
theorem fits_of_check {a : WrittenAction} {size : Nat} {action : Action}
    (h : a.check size = .ok action) : action.Fits size := by
  unfold WrittenAction.check at h
  split at h
  · exact nomatch h
  next kind _ =>
  split at h
  · exact nomatch h
  next harity =>
  split at h
  · exact nomatch h
  next hfind =>
  obtain rfl := Except.ok.inj h
  have harity : (writtenArity kind).contains a.indexes.length := by simpa using harity
  refine ⟨fun {i} hi => by simpa using List.find?_eq_none.1 hfind i hi, fun {kind'} hkind => ?_⟩
  obtain rfl : kind = some kind' := hkind
  exact harity

/-- An alternative without an action forwards, and one with an action has it checked. -/
theorem fits_of_action? {a : Alternative} {action : Action} (h : a.action? = .ok action) :
    action.Fits a.elements.length := by
  unfold Alternative.action? at h
  split at h
  · obtain rfl := Except.ok.inj h
    exact Action.fits_forward _
  · next written _ =>
    cases hcheck : written.check a.elements.length with
    | error e =>
      rw [hcheck] at h
      exact nomatch h
    | ok action' =>
      rw [hcheck] at h
      obtain rfl := Except.ok.inj h
      exact fits_of_check hcheck

/-- Rules that their actions fit. -/
def Fitting (rules : Array ShiftReduce.Rule) : Prop :=
  ∀ rule ∈ rules, rule.action.Fits rule.rhs.length

/-- Actions fit their rules, as an alternative has as many elements as its rules have symbols. -/
theorem fitting_of_rulesOver {g : Grammar} {r : Registry} {limits : Limits} {accept : SymbolId}
    {rules : Array ShiftReduce.Rule} (h : g.rulesOver r limits accept = .ok rules) :
    Fitting rules := by
  have hexpanded := expanded_of_rulesOver h
  intro rule hrule
  obtain ⟨n, hn⟩ := Array.getElem?_of_mem hrule
  by_cases hstart : n = RuleId.start
  · subst hstart
    obtain rfl := Option.some.inj (hexpanded.first.symm.trans hn)
    exact Action.fits_forward _
  · obtain ⟨a, hstems⟩ := hexpanded.stems hn hstart
    exact hstems.elements.length_eq ▸ fits_of_action? hstems.action

end Grammar

/-- **The rules that a text yields have actions that fit them.** -/
theorem Automaton.fitting_of_readRules {limits : Limits} {source : String} {r r' : Registry}
    {g : Grammar} {rules : Array Rule}
    (h : (readRules limits source).runOn r = (.ok (g, rules), r')) : Grammar.Fitting rules := by
  obtain ⟨r₁, accept, -, -, hrules⟩ := exists_of_readRules h
  exact Grammar.fitting_of_rulesOver hrules

end ShiftReduce

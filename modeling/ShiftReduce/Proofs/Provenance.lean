import Mathlib.Data.List.Perm.Basic
import Mathlib.Data.List.Perm.Subperm
import Mathlib.Data.List.FinRange
import ShiftReduce.Proofs.Soundness

/-!
# Proofs/Provenance — where the parts of a tree come from

A tree repeats nothing of its input and adds nothing to it: its leaves, and the names and operators
in its nodes, come from tokens, each from one of its own (`Piece.Of`).  A token is a leaf first; an
action may leave the leaf as it is, keep its lexeme or name only, or drop it, but it takes no child
twice (`Taking.Draws`), so that every value that a parser has on its stack is supplied by the tokens
below it (`Forest.supplies_of_eval`).
-/

namespace ShiftReduce

/-! ## Supplies -/

/-- Each of the elements of `ys` comes from an element of `xs` of its own. -/
def Supplies {α β : Type} (R : α → β → Prop) (xs : List α) (ys : List β) : Prop :=
  ∃ us, us.Subperm xs ∧ List.Forall₂ R us ys

namespace Supplies

variable {α β γ : Type} {R : α → β → Prop} {xs xs' : List α} {ys ys' : List β}

theorem of_forall₂ (h : List.Forall₂ R xs ys) : Supplies R xs ys := ⟨xs, .refl xs, h⟩

theorem nil : Supplies R xs [] := ⟨[], List.nil_subperm, .nil⟩

/-- Supplies can be put together. -/
theorem append (h : Supplies R xs ys) (h' : Supplies R xs' ys') :
    Supplies R (xs ++ xs') (ys ++ ys') := by
  obtain ⟨us, hus, hR⟩ := h
  obtain ⟨us', hus', hR'⟩ := h'
  exact ⟨us ++ us', hus.append hus', List.rel_append hR hR'⟩

/-- More than is needed may be at hand. -/
theorem of_subperm_left (h : Supplies R xs ys) (hs : xs.Subperm xs') : Supplies R xs' ys := by
  obtain ⟨us, hus, hR⟩ := h
  exact ⟨us, hus.trans hs, hR⟩

theorem exists_forall₂_of_sublist (h : List.Forall₂ R xs ys) (hs : ys'.Sublist ys) :
    ∃ xs' : List α, xs'.Sublist xs ∧ List.Forall₂ R xs' ys' := by
  induction hs generalizing xs with
  | slnil => exact ⟨[], List.nil_sublist xs, .nil⟩
  | cons y _ ih =>
    cases h with
    | cons _ h =>
      obtain ⟨us, hus, hR⟩ := ih h
      exact ⟨us, hus.cons _, hR⟩
  | cons_cons y _ ih =>
    cases h with
    | @cons x _ _ _ hxy h =>
      obtain ⟨us, hus, hR⟩ := ih h
      exact ⟨x :: us, hus.cons_cons x, .cons hxy hR⟩

/-- Not all that is supplied need be asked for, nor in that order. -/
theorem of_subperm_right (h : Supplies R xs ys) (hs : ys'.Subperm ys) : Supplies R xs ys' := by
  obtain ⟨us, hus, hR⟩ := h
  obtain ⟨ws, hperm, hsub⟩ := hs
  obtain ⟨us', hus', hR'⟩ := exists_forall₂_of_sublist hR hsub
  obtain ⟨us'', hR'', hperm'⟩ := List.perm_comp_forall₂ hperm.symm hR'.flip
  exact ⟨us'', hperm'.subperm.trans (hus'.subperm.trans hus), hR''.flip⟩

/-- What is supplied by supplies is supplied. -/
theorem trans {S : β → γ → Prop} {T : α → γ → Prop} {zs : List γ} (h : Supplies R xs ys)
    (h' : Supplies S ys zs) (hT : ∀ x y z, R x y → S y z → T x z) : Supplies T xs zs := by
  obtain ⟨vs, hvs, hS⟩ := h'
  obtain ⟨us, hus, hR⟩ := h.of_subperm_right hvs
  refine ⟨us, hus, ?_⟩
  clear hvs hus h
  induction hR generalizing zs with
  | nil =>
    cases hS
    exact .nil
  | cons hxy _ ih =>
    cases hS with
    | cons hyz hS => exact .cons (hT _ _ _ hxy hyz) (ih hS)

/-- **Supplies as an injection** of the places of the one list into those of the other. -/
theorem exists_injective (h : Supplies R xs ys) :
    ∃ f : Fin ys.length → Fin xs.length, Function.Injective f ∧
      ∀ i, R (xs.get (f i)) (ys.get i) := by
  have hplaces : Supplies (fun i x => xs.get i = x) (List.finRange xs.length) xs :=
    of_forall₂ (List.forall₂_iff_get.2 ⟨by simp, fun i _ _ => by simp⟩)
  obtain ⟨is, his, hR⟩ := hplaces.trans (T := fun i y => R (xs.get i) y) h
    fun i x y hx hxy => hx ▸ hxy
  have hlength : is.length = ys.length := hR.length_eq
  have hnodup : is.Nodup := by
    obtain ⟨js, hperm, hsub⟩ := his
    exact hperm.nodup (hsub.nodup (List.nodup_finRange xs.length))
  refine ⟨fun i => is.get (i.cast hlength.symm), fun i j hij => ?_, fun i => ?_⟩
  · exact Fin.cast_injective hlength.symm (List.nodup_iff_injective_get.1 hnodup hij)
  · exact hR.get (hlength.symm ▸ i.isLt) i.isLt

end Supplies

/-! ## The parts of a tree -/

/-- A part of a tree that has to come from the input. -/
inductive Piece where
  /-- A leaf. -/
  | leaf (node : Ast)
  /-- The operator of an operation. -/
  | operator (lexeme : String)
  /-- The name in a node, or one of its parameters. -/
  | name (name : String)

/-- The parts that a token can supply. -/
def Piece.Of (token : Token) : Piece → Prop
  | .leaf node => Ast.leaf token = node
  | .operator lexeme => Ast.leaf token = .token token.location lexeme
  | .name s => token.kind = .ident ∧ token.value = .str s

/-- Whatever token supplies the one part supplies the other. -/
def Piece.Becomes (p p' : Piece) : Prop := ∀ token, p.Of token → p'.Of token

namespace Ast

mutual

/-- The parts of a tree that have to come from the input, as often as they occur. -/
def pieces : Ast → List Piece
  | .literal l value => [.leaf (.literal l value)]
  | .ident l name => [.leaf (.ident l name)]
  | .token l lexeme => [.leaf (.token l lexeme)]
  | .unary _ op operand => .operator op :: operand.pieces
  | .binary _ op lhs rhs => lhs.pieces ++ .operator op :: rhs.pieces
  | .assign _ target value => target.pieces ++ value.pieces
  | .variable _ name value => .name name :: optionPieces value
  | .conditional _ condition consequence alternative =>
    condition.pieces ++ (consequence.pieces ++ optionPieces alternative)
  | .forLoop _ name first last step body =>
    .name name :: (first.pieces ++ (optionPieces step ++ (last.pieces ++ body.pieces)))
  | .whileLoop _ condition body => condition.pieces ++ body.pieces
  | .call _ callee args => .name callee :: listPieces args
  | .function _ name params body => .name name :: (params.map .name ++ body.pieces)
  | .record _ name fields => .name name :: listPieces fields
  | .block _ nodes => listPieces nodes

/-- The parts of a tree, if there is one. -/
def optionPieces : Option Ast → List Piece
  | none => []
  | some node => node.pieces

/-- The parts of several trees. -/
def listPieces : List Ast → List Piece
  | [] => []
  | node :: nodes => node.pieces ++ listPieces nodes

end

theorem listPieces_append (nodes nodes' : List Ast) :
    listPieces (nodes ++ nodes') = listPieces nodes ++ listPieces nodes' := by
  induction nodes with
  | nil => rfl
  | cons node nodes ih => simp [listPieces, ih]

theorem listPieces_singleton (node : Ast) : listPieces [node] = node.pieces := List.append_nil _

/-- A shifted token is all that its leaf is made of. -/
theorem pieces_leaf (token : Token) : (leaf token).pieces = [.leaf (leaf token)] := by
  unfold leaf
  split
  case h_6 =>
    split
    · rfl
    · split <;> rfl
  all_goals rfl

theorem location_leaf (token : Token) : (leaf token).location = token.location := by
  unfold leaf
  split
  case h_6 =>
    split
    · rfl
    · split <;> rfl
  all_goals rfl

/-- Only identifiers have a name for a leaf. -/
theorem of_leaf_eq_ident {token : Token} {l : Location} {name : String}
    (h : leaf token = .ident l name) : token.kind = .ident ∧ token.value = .str name := by
  unfold leaf at h
  split at h
  case h_1 hkind hvalue =>
    obtain ⟨-, rfl⟩ := Ast.ident.inj h
    exact ⟨hkind, hvalue⟩
  case h_6 =>
    -- a keyword is a truth value or a token
    split at h
    · exact nomatch h
    · split at h <;> exact nomatch h
  all_goals exact nomatch h

end Ast

namespace Piece

theorem becomes_refl (p : Piece) : p.Becomes p := fun _ => id

/-- Pieces that are kept become themselves. -/
theorem forall₂_becomes_refl (ps : List Piece) : List.Forall₂ Becomes ps ps :=
  List.forall₂_same.2 fun p _ => becomes_refl p

/-- An operator keeps the lexeme of the leaf. -/
theorem becomes_operator {node : Ast} {lexeme : String} (h : node.lexeme? = some lexeme) :
    List.Forall₂ Becomes node.pieces [.operator lexeme] := by
  unfold Ast.lexeme? at h
  split at h
  · next l lexeme' =>
    obtain rfl := Option.some.inj h
    refine .cons (fun token htoken => ?_) .nil
    have hleaf : Ast.leaf token = .token l lexeme' := htoken
    have hlocation := Ast.location_leaf token
    rw [hleaf] at hlocation
    exact hleaf.trans (congrArg (Ast.token · lexeme') hlocation)
  · exact nomatch h

/-- A name keeps that of the leaf. -/
theorem becomes_name {node : Ast} {name : String} (h : node.ident? = some name) :
    List.Forall₂ Becomes node.pieces [.name name] := by
  unfold Ast.ident? at h
  split at h
  · obtain rfl := Option.some.inj h
    exact .cons (fun token => Ast.of_leaf_eq_ident) .nil
  · exact nomatch h

/-- Nodes that are read as names become these names. -/
theorem becomes_names {nodes : List Ast} {names : List String}
    (h : nodes.mapM Ast.ident? = some names) :
    List.Forall₂ Becomes (Ast.listPieces nodes) (names.map .name) := by
  induction nodes generalizing names with
  | nil =>
    obtain rfl : [] = names := Option.some.inj h
    exact .nil
  | cons node nodes ih =>
    rw [List.mapM_cons] at h
    obtain ⟨name, hname, h⟩ := Option.bind_eq_some_iff.1 h
    obtain ⟨rest, hrest, h⟩ := Option.bind_eq_some_iff.1 h
    obtain rfl : name :: rest = names := Option.some.inj h
    exact List.rel_append (becomes_name hname) (ih hrest)

end Piece

/-! ## Taking children -/

namespace Action

open Ast Piece

/-- The parts of the children that are left. -/
def heldPieces (children : List (Option Ast)) : List Piece := children.flatMap optionPieces

/-- A child that is taken is not there any more. -/
theorem heldPieces_perm {children : List (Option Ast)} {i : Nat} {child : Option Ast}
    (h : children[i]? = some child) :
    (heldPieces children).Perm (optionPieces child ++ heldPieces (children.set i none)) := by
  induction children generalizing i with
  | nil => exact nomatch h
  | cons first children ih =>
    cases i with
    | zero =>
      obtain rfl := Option.some.inj h
      exact .refl _
    | succ i =>
      have hrest := (ih h).append_left (optionPieces first)
      refine hrest.trans ?_
      rw [List.set_cons_succ]
      simp only [heldPieces, List.flatMap_cons, ← List.append_assoc]
      exact List.perm_append_comm.append_right _

namespace Taking

variable {α β : Type}

/-- A computation that has the parts `held` at hand beside those of the children: the parts `out` of
its result, and those of the children that are left, come from them. -/
def Draws (held : List Piece) (m : Taking α) (out : α → List Piece) : Prop :=
  ∀ children a rest, m children = .ok (a, rest) →
    Supplies Becomes (held ++ heldPieces children) (out a ++ heldPieces rest)

theorem supplies_becomes_trans {ps qs rs : List Piece} (h : Supplies Becomes ps qs)
    (h' : Supplies Becomes qs rs) : Supplies Becomes ps rs :=
  h.trans h' fun _ _ _ hpq hqr token => hqr token ∘ hpq token

variable {held : List Piece} {m : Taking α} {out : α → List Piece}

theorem draws_pure {a : α} (h : List.Forall₂ Becomes held (out a)) :
    Draws held (pure a : Taking α) out := by
  intro children a' rest hok
  obtain ⟨rfl, rfl⟩ := Prod.mk.inj (Except.ok.inj hok)
  exact .append (.of_forall₂ h) (.of_forall₂ (forall₂_becomes_refl _))

/-- A computation that fails draws nothing. -/
theorem draws_throw {problem : Problem} : Draws held (throw problem : Taking α) out := nofun

/-- What is drawn is held when the next computation draws. -/
theorem Draws.bind {f : α → Taking β} {out' : β → List Piece} (hm : Draws held m out)
    (hf : ∀ a, Draws (out a) (f a) out') : Draws held (m >>= f) out' := by
  intro children b rest hok
  obtain ⟨⟨a, rest'⟩, hma, hfa⟩ := Except.bind_eq_ok hok
  exact supplies_becomes_trans (hm children a rest' hma) (hf a rest' b rest hfa)

/-- What is at hand besides stays so. -/
theorem Draws.frame (hm : Draws [] m out) : Draws held m fun a => held ++ out a := by
  intro children a rest hok
  rw [List.append_assoc]
  exact .append (.of_forall₂ (forall₂_becomes_refl held)) (hm children a rest hok)

theorem draws_optional (i : Nat) :
    Draws held (optional i) fun child => held ++ optionPieces child := by
  refine Draws.frame fun children child rest hok => ?_
  unfold optional at hok
  split at hok
  · exact nomatch hok
  next child' hchild =>
  obtain ⟨rfl, rfl⟩ := Prod.mk.inj (Except.ok.inj hok)
  exact .of_subperm_right (.of_forall₂ (forall₂_becomes_refl _))
    (heldPieces_perm hchild).symm.subperm

/-- A child is drawn with all its pieces. -/
theorem draws_required (i : Nat) : Draws held (required i) fun node => held ++ node.pieces :=
  (draws_optional i).bind fun
    | some _ => draws_pure (forall₂_becomes_refl _)
    | none => draws_throw

theorem draws_operator (i : Nat) :
    Draws held (operator i) fun lexeme => held ++ [.operator lexeme] :=
  (draws_required i).bind fun node => by
    split
    · next h => exact draws_pure (List.rel_append (forall₂_becomes_refl held) (becomes_operator h))
    · exact draws_throw

/-- Of a child that is a name, the name is drawn. -/
theorem draws_ident (i : Nat) : Draws held (ident i) fun name => held ++ [.name name] :=
  (draws_required i).bind fun node => by
    split
    · next h => exact draws_pure (List.rel_append (forall₂_becomes_refl held) (becomes_name h))
    · exact draws_throw

theorem draws_nodes (i : Nat) : Draws held (nodes i) fun nodes => held ++ listPieces nodes :=
  (draws_optional i).bind fun child => by
    split
    · exact draws_pure (forall₂_becomes_refl _)
    · exact draws_pure (by
        rw [listPieces_singleton]
        exact forall₂_becomes_refl _)
    · exact draws_pure (forall₂_becomes_refl _)

theorem draws_idents (i : Nat) : Draws held (idents i) fun names => held ++ names.map .name :=
  (draws_nodes i).bind fun nodes => by
    split
    · next h => exact draws_pure (List.rel_append (forall₂_becomes_refl held) (becomes_names h))
    · exact draws_throw

/-- Lists of nodes are drawn one behind the other. -/
theorem draws_mapM_nodes (is : List Nat) :
    Draws held (is.mapM nodes) fun lists => held ++ listPieces lists.flatten := by
  induction is generalizing held with
  | nil =>
    refine draws_pure (a := []) ?_
    rw [List.flatten_nil, listPieces, List.append_nil]
    exact forall₂_becomes_refl held
  | cons i is ih =>
    rw [List.mapM_cons]
    refine (draws_nodes i).bind fun nodes => ih.bind fun lists => draws_pure ?_
    rw [List.flatten_cons, listPieces_append, List.append_assoc]
    exact forall₂_becomes_refl _

end Taking

/-! ## Building nodes -/

open Taking

/-- **A node has no part that the children have not**, whatever positions its action names. -/
theorem draws_build (kind : Kind) (is : List Nat) (location : Location) :
    Draws [] (build kind is location) Ast.pieces := by
  have hdone {node : Ast} {ps : List Piece} (h : node.pieces = ps) :
      Draws ps (pure node : Taking Ast) Ast.pieces := draws_pure (h ▸ forall₂_becomes_refl _)
  unfold build
  split
  · exact (draws_operator _).bind fun _ => (draws_required _).bind fun _ => hdone rfl
  · exact (draws_required _).bind fun _ => (draws_operator _).bind fun _ =>
      (draws_required _).bind fun _ => hdone (by simp [pieces])
  · exact (draws_required _).bind fun _ => (draws_required _).bind fun _ => hdone rfl
  · exact (draws_ident _).bind fun _ => hdone rfl
  · exact (draws_ident _).bind fun _ => (draws_optional _).bind fun _ => hdone rfl
  · exact (draws_required _).bind fun _ => (draws_required _).bind fun _ =>
      hdone (by simp [pieces, optionPieces])
  · exact (draws_required _).bind fun _ => (draws_required _).bind fun _ =>
      (draws_optional _).bind fun _ => hdone (by simp [pieces])
  · exact (draws_ident _).bind fun _ => (draws_required _).bind fun _ =>
      (draws_required _).bind fun _ => (draws_required _).bind fun _ =>
        hdone (by simp [pieces, optionPieces])
  · exact (draws_ident _).bind fun _ => (draws_required _).bind fun _ =>
      (draws_required _).bind fun _ => (draws_required _).bind fun _ =>
        (draws_required _).bind fun _ => hdone (by simp [pieces, optionPieces])
  · exact (draws_required _).bind fun _ => (draws_required _).bind fun _ => hdone rfl
  · exact (draws_ident _).bind fun _ => hdone rfl
  · exact (draws_ident _).bind fun _ => (draws_nodes _).bind fun _ => hdone rfl
  · exact (draws_ident _).bind fun _ => (draws_required _).bind fun _ => hdone rfl
  · exact (draws_ident _).bind fun _ => (draws_idents _).bind fun _ =>
      (draws_required _).bind fun _ => hdone (by simp [pieces])
  · exact (draws_ident _).bind fun _ => hdone rfl
  · exact (draws_ident _).bind fun _ => (draws_nodes _).bind fun _ => hdone rfl
  · exact (draws_mapM_nodes _).bind fun _ => hdone rfl
  · exact draws_throw

/-- What a computation draws is supplied by the children that it starts from. -/
theorem supplies_of_run' {α : Type} {m : Taking α} {out : α → List Piece} (hm : Draws [] m out)
    {children : List (Option Ast)} {a : α} (h : m.run' children = .ok a) :
    Supplies Becomes (heldPieces children) (out a) := by
  have hrun : m.run' children = Prod.fst <$> m children := rfl
  cases hchildren : m children with
  | error problem =>
    rw [hrun, hchildren] at h
    exact nomatch h
  | ok p =>
    rw [hrun, hchildren] at h
    obtain rfl := Except.ok.inj h
    exact (hm children p.1 p.2 hchildren).of_subperm_right
      (List.sublist_append_left (out p.1) (heldPieces p.2)).subperm

/-- **A reduction makes its node out of its children**: each part of the node is one of theirs. -/
theorem supplies_of_reduce {action : Action} {children : List (Option Ast)} {location : Location}
    {value : Option Ast} (h : action.reduce children location = .ok value) :
    Supplies Becomes (heldPieces children) (optionPieces value) := by
  unfold reduce at h
  split at h
  · obtain rfl := Except.ok.inj h
    exact .nil
  · have hdraws (i : Nat) : Draws [] (Taking.optional i) optionPieces := draws_optional i
    exact supplies_of_run' (hdraws _) (Except.eq_ok_of_mapError h)
  · obtain ⟨node, hnode, rfl⟩ := Except.exists_of_map_eq_ok (Except.eq_ok_of_mapError h)
    exact supplies_of_run' (draws_build _ _ _) hnode

end Action

/-! ## Runs -/

open ShiftReduce.Action ShiftReduce.Parser

theorem Action.heldPieces_append (children children' : List (Option Ast)) :
    heldPieces (children ++ children') = heldPieces children ++ heldPieces children' :=
  List.flatMap_append

/-- **The values of a forest are made of its leaves**: each part of a value comes from a token of
its own. -/
theorem Forest.supplies_of_eval {rules : Array Rule} {F : Forest Parser.Lookahead} {next : Location}
    {values : List (Option Ast)} (h : F.eval rules next = .ok values) :
    Supplies Piece.Of (F.yield.map Lookahead.token) (heldPieces values) := by
  induction F generalizing next values with
  | nil =>
    obtain rfl := Except.ok.inj h
    exact .nil
  | leaf init a ih =>
    obtain ⟨vs, hvs, h⟩ := Except.bind_eq_ok h
    obtain rfl := Except.ok.inj h
    rw [heldPieces_append, yield, List.map_append]
    have hleaf : heldPieces [some (.leaf a.token)] = [.leaf (.leaf a.token)] :=
      (List.append_nil _).trans (Ast.pieces_leaf a.token)
    exact (ih hvs).append (hleaf ▸ .of_forall₂ (.cons rfl .nil))
  | node init r children ih ih' =>
    obtain ⟨vs, hvs, h⟩ := Except.bind_eq_ok h
    obtain ⟨arguments, harguments, h⟩ := Except.bind_eq_ok h
    rw [yield, List.map_append]
    split at h
    · -- the tokens of children without a rule are used for nothing
      obtain rfl := Except.ok.inj h
      exact (ih hvs).of_subperm_left (List.sublist_append_left _ _).subperm
    · obtain ⟨value, hvalue, h⟩ := Except.bind_eq_ok h
      obtain rfl := Except.ok.inj h
      have hpieces : heldPieces [value] = Ast.optionPieces value := List.append_nil _
      rw [heldPieces_append, hpieces]
      exact (ih hvs).append ((ih' harguments).trans (supplies_of_reduce hvalue)
        fun token _ _ hp hbecomes => hbecomes token hp)

/-- The tokens that a run has shifted: those at the front of its input, one for each shift. -/
structure Parser.Shifted {ε : Type} (t : Table) (tokens : List (Except ε Token))
    (lookups : List Lookup) (shifted : List Token) : Prop where
  streamed {n : Nat} {token : Token} (h : shifted[n]? = some token) :
    streamed tokens .start n = .ok token
  moves : shifted.map (fun token => t.terminal? token.kind.terminal) =
    ((movesOf lookups).filterMap Move.terminal?).map some

namespace Parser

variable {ε : Type} {t : Table} {rules : Array Rule} {terminalCount symbolCount : Nat}
  {c : Collection} {accept start : SymbolId} {tokens : List (Except ε Token)}

/-- The leaves of a stack's forest are the first tokens of the input. -/
theorem Evaluated.streamed_eq {ms : List Move} {config : Config ε} {xs : List SymbolId}
    {F : Forest Lookahead} {values : List (Option Ast)}
    (h : Evaluated t rules terminalCount c tokens ms config xs F values) {n : Nat} {l : Lookahead}
    (hl : F.yield[n]? = some l) : streamed tokens .start n = .ok l.token ∧
      t.terminal? l.token.kind.terminal = some l.terminal := by
  have hlt : n < F.yield.length := (List.getElem?_eq_some_iff.1 hl).1
  exact h.reads.streamed_eq n l (by rwa [List.getElem?_append_left hlt])

/-- A run that accepts has read the leaves of a forest, and its tree is the value of that. -/
theorem exists_eval_of_run (hf : t.Follows rules terminalCount c)
    (hc : Collection.Canonical rules c)
    (ha : Augmented rules accept start symbolCount terminalCount) {fuel : Nat}
    {lookups : List Lookup} {node : Ast} (hrun : run t fuel tokens = (lookups, some (.ok node))) :
    ∃ (F : Forest Lookahead) (next : Location) (value : Option Ast),
      F.eval rules next = .ok [value] ∧ node = value.getD (.block next []) ∧
      movesOf lookups = F.moves Lookahead.terminal ∧
      ∀ n l, F.yield[n]? = some l → streamed tokens .start n = .ok l.token ∧
        t.terminal? l.token.kind.terminal = some l.terminal := by
  obtain ⟨config, F, value, he, -, hnode⟩ := exists_evaluated_of_run hf hc ha hrun
  exact ⟨F, _, value, he.eval, hnode, he.moves.symm, fun n l hl => he.streamed_eq hl⟩

/-- The tokens at the leaves of a forest that a run has read are those that it has shifted. -/
theorem shifted_of_reads {lookups : List Lookup} {F : Forest Lookahead}
    (hmoves : movesOf lookups = F.moves Lookahead.terminal)
    (hread : ∀ n l, F.yield[n]? = some l → streamed tokens .start n = .ok l.token ∧
      t.terminal? l.token.kind.terminal = some l.terminal) :
    Shifted t tokens lookups (F.yield.map Lookahead.token) := by
  refine ⟨fun {n token} htoken => ?_, ?_⟩
  · rw [List.getElem?_map] at htoken
    obtain ⟨l, hl, rfl⟩ := Option.map_eq_some_iff.1 htoken
    exact (hread n l hl).1
  · rw [hmoves, ← Forest.map_yield_eq, List.map_map, List.map_map]
    refine List.map_congr_left fun l hl => ?_
    obtain ⟨n, hn⟩ := List.mem_iff_getElem?.1 hl
    exact (hread n l hn).2

end Parser

namespace Automaton

variable {ε : Type} {config : Config} {registry : Registry} {source : String} {a : Automaton}

/-- **A tree neither invents nor repeats what it is made of**: every part of a tree that a run
accepts comes from a shifted token of its own. -/
theorem exists_injective_of_run (hmade : registry.Made)
    (h : generate config registry source = .ok a) {tokens : List (Except ε Token)} {fuel : Nat}
    {lookups : List Lookup} {node : Ast}
    (hrun : run a.table fuel tokens = (lookups, some (.ok node))) :
    ∃ shifted : List Token, Shifted a.table tokens lookups shifted ∧
      ∃ f : Fin node.pieces.length → Fin shifted.length, Function.Injective f ∧
        ∀ i, (node.pieces.get i).Of (shifted.get (f i)) := by
  obtain ⟨c, lookaheads, result, hp⟩ := parts_of_generate h
  obtain ⟨hreserves, accept, ha⟩ := reserves_of_readRules hmade hp.read
  have hc := canonical_of_augmented ha hp.canonical
  obtain ⟨F, next, value, heval, rfl, hmoves, hread⟩ :=
    exists_eval_of_run (hp.follows hreserves ha) hc ha hrun
  have hpieces : heldPieces [value] = (value.getD (.block next [])).pieces := by
    rw [heldPieces, List.flatMap_singleton]
    cases value <;> rfl
  exact ⟨F.yield.map Lookahead.token, shifted_of_reads hmoves hread,
    (hpieces ▸ Forest.supplies_of_eval heval).exists_injective⟩

/-- A block that names the last of three children first, and the first one twice: the second time it
is gone. -/
theorem exists_injective_of_run_block : ∃ (a : Automaton) (tokens : List (Except Unit Token))
    (lookups : List Lookup) (node : Ast), Registry.standard.Made ∧
    generate {} .standard "s = NUM '+' NUM { block 2 0 0 };" = .ok a ∧
    tokens = [.ok (.int 1 .start), .ok (.keyword "+" .start), .ok (.int 2 .start)] ∧
    run a.table 9 tokens = (lookups, some (.ok node)) ∧ node.pieces.length = 2 ∧
    ∃ shifted : List Token, Shifted a.table tokens lookups shifted ∧
      ∃ f : Fin node.pieces.length → Fin shifted.length, Function.Injective f ∧
        ∀ i, (node.pieces.get i).Of (shifted.get (f i)) := by
  have hok : (generate {} .standard "s = NUM '+' NUM { block 2 0 0 };").toOption.any (fun a =>
      (run (ε := Unit) a.table 9
        [.ok (.int 1 .start), .ok (.keyword "+" .start), .ok (.int 2 .start)]).2.any (fun answer =>
          answer.toOption.any fun node => node.pieces.length = 2)) = true := by
    decide +kernel
  obtain ⟨a, ha, hok⟩ := Except.exists_of_any_toOption hok
  obtain ⟨answer, hanswer, hok⟩ := (Option.any_eq_true _ _).1 hok
  obtain ⟨node, rfl, hlength⟩ := Except.exists_of_any_toOption hok
  exact ⟨a, _, _, node, .standard, ha, rfl, Prod.ext rfl hanswer, of_decide_eq_true hlength,
    exists_injective_of_run .standard ha (Prod.ext rfl hanswer)⟩

end Automaton
end ShiftReduce

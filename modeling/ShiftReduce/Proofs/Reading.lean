import Mathlib.Data.List.Sort
import ShiftReduce.Proofs.Phrase
import ShiftReduce.Proofs.Scanning

/-!
# Proofs/Reading — the readers take the phrases of the notation

Each reader of definitions is joined to its phrase in both directions.  What a reader takes off the
lexemes is a phrase with the meaning that it returns (`alternative_of_readAlternative` and the
like); and a phrase is read off, whatever stands behind it, as long as the phrase cannot go on there
(`readAlternative_append` and the like).  `StopsAt` says where that is: before a mark, at the end,
or where a definition begins.  On a whole text nothing stands behind, so that the definitions are
read off exactly as they are spelled, and no text has two readings (`Phrase.Definitions.unique`).
-/

namespace ShiftReduce.Grammar

open Phrase

/-! ## Classes of characters -/

theorem char_lt_iff {a b : Char} : a < b ↔ a.toNat < b.toNat := UInt32.lt_iff_toNat_lt

theorem char_le_iff {a b : Char} : a ≤ b ↔ a.toNat ≤ b.toNat := UInt32.le_iff_toNat_le

/-- Letters and digits are of seven bits, so every number below one is a character's. -/
theorem toNat_lt_of_isAlphanum {c : Char} (h : c.isAlphanum = true) : c.toNat < 0x80 := by
  rcases Bool.or_eq_true_iff.1 h with h | h
  · exact Nat.lt_of_le_of_lt (toNat_of_isAlpha h).2 (by decide)
  · exact Nat.lt_of_le_of_lt (Char.isDigit_iff_toNat.1 h).2 (by decide)

theorem le_toNat_of_isAlphanum {c : Char} (h : c.isAlphanum = true) : 0x30 ≤ c.toNat := by
  rcases Bool.or_eq_true_iff.1 h with h | h
  · exact Nat.le_trans (by decide) (toNat_of_isAlpha h).1
  · exact (Char.isDigit_iff_toNat.1 h).1

theorem toNat_ofNat_of_lt {n : Nat} (h : n < 0x80) : (Char.ofNat n).toNat = n := by
  have hv : n.isValidChar := .inl (by omega)
  rw [Char.ofNat, dif_pos hv]
  rfl

/-- A range is made of the characters from the first to the last. -/
theorem range_charRange {first last : Char} (h : last.isAlphanum = true) :
    Range first last (charRange first last) := by
  have hlast := toNat_lt_of_isAlphanum h
  constructor
  · refine List.pairwise_map.2 (List.pairwise_lt_range.imp_of_mem fun {i j} _ hj hij => ?_)
    have hj := List.mem_range.1 hj
    rw [char_lt_iff, toNat_ofNat_of_lt (by omega), toNat_ofNat_of_lt (by omega)]
    omega
  · intro c
    simp only [charRange, List.mem_map, List.mem_range, char_le_iff]
    constructor
    · rintro ⟨n, hn, rfl⟩
      rw [toNat_ofNat_of_lt (by omega)]
      omega
    · rintro ⟨h1, h2⟩
      refine ⟨c.toNat - first.toNat, by omega, ?_⟩
      rw [Nat.add_sub_cancel' h1, Char.ofNat_toNat]

/-- A range has one list of characters, as it is ascending. -/
theorem Phrase.Range.unique {first last : Char} {cs cs' : List Char} (h : Range first last cs)
    (h' : Range first last cs') : cs = cs' :=
  h.ascending.eq_of_mem_iff h'.ascending fun c => (h.mem_iff c).trans (h'.mem_iff c).symm

/-- Where no range begins, the first character of a class stands for itself. -/
theorem expandClass_char {c : Char} {body : List Char} (h : ¬ BeginsRange (c :: body)) :
    expandClass (c :: body) = (expandClass body).map (c :: ·) := by
  rw [expandClass.eq_def]
  split
  · next heq => cases heq
  · next heq =>
    obtain ⟨rfl, rfl⟩ := List.cons.inj heq
    rw [if_neg (by simpa [BeginsRange] using h)]
  · next heq =>
    obtain ⟨rfl, rfl⟩ := List.cons.inj heq
    rfl

/-- Where a range begins, it is expanded before the rest of the class. -/
theorem expandClass_range {first last : Char} {body : List Char}
    (h : BeginsRange (first :: '-' :: last :: body)) :
    expandClass (first :: '-' :: last :: body) =
      if last < first then .error (.reversedRange first last)
      else (expandClass body).map (charRange first last ++ ·) := by
  rw [expandClass, if_pos (by simpa [BeginsRange] using h)]

/-- Expanding succeeds on classes, and yields their characters. -/
theorem expandClass_eq_ok_iff {cs members : List Char} :
    expandClass cs = .ok members ↔ Class cs members := by
  constructor
  · intro h
    fun_induction expandClass cs generalizing members with
    | case1 =>
      obtain rfl := Except.ok.inj h
      exact .nil
    | case2 => cases h
    | case3 first last body hc hle ih =>
      have hc : first.isAlphanum = true ∧ last.isAlphanum = true := by simpa using hc
      obtain ⟨rest, hr, rfl⟩ := Except.exists_of_map_eq_ok h
      exact .range hc (Char.not_lt.1 hle) (range_charRange hc.2) (ih hr) rfl
    | case4 c last body hc ih =>
      obtain ⟨rest, hr, rfl⟩ := Except.exists_of_map_eq_ok h
      exact .char (by simpa [BeginsRange] using hc) (ih hr)
    | case5 c body hc ih =>
      obtain ⟨rest, hr, rfl⟩ := Except.exists_of_map_eq_ok h
      refine .char (fun hb => ?_) (ih hr)
      unfold BeginsRange at hb
      split at hb
      · next heq => exact hc _ _ (List.cons.inj heq).2
      · exact hb
  · intro h
    induction h with
    | nil => rw [expandClass]
    | @range first last cs members body rest h hle hr hb hm ih =>
      rw [expandClass_range h, if_neg (Char.not_lt.2 hle), ih, hm,
        hr.unique (range_charRange h.2)]
      rfl
    | char h hb ih =>
      rw [expandClass_char h, ih]
      rfl

/-- Blanks and repetitions in a class do not count, and something else has to be in it. -/
theorem classMembers_eq_ok_iff {body : String} {members : List String} :
    classMembers body = .ok members ↔
      ∃ cs, Class (body.toList.filter (!Text.isBlank ·)) cs ∧ cs ≠ [] ∧
        cs.eraseDups.map Char.toString = members := by
  constructor
  · intro h
    obtain ⟨cs, hcs, h⟩ := Except.bind_eq_ok h
    split at h
    · cases h
    · next hne =>
      exact ⟨cs, expandClass_eq_ok_iff.1 hcs, by simpa using hne, Except.ok.inj h⟩
  · rintro ⟨cs, hcs, hne, rfl⟩
    simp [classMembers, expandClass_eq_ok_iff.2 hcs, bind, Except.bind, hne]

/-! ## What a lexeme is within an alternative -/

/-- The marks that end the elements of an alternative. -/
abbrev elementStops : List Lexeme := [.bar, .semicolon, .openBrace]

/-- The role of a lexeme, as the notation has it. -/
inductive HasRole : Lexeme → Role → Prop
  | element {l : Lexeme} {kind : Element.Kind} (h : Kind l kind) : HasRole l (.element kind)
  | epsilon : HasRole (.name Terminal.epsilon) .epsilon
  | stop {l : Lexeme} (h : l ∈ elementStops) : HasRole l .stop

/-- The reader gives a lexeme no role but those that it has. -/
theorem hasRole_of_role {l : Lexeme} {role : Role} (h : l.role = .ok role) : HasRole l role := by
  unfold Lexeme.role at h
  split at h
  · exact Except.ok.inj h ▸ .stop (by simp)
  · exact Except.ok.inj h ▸ .stop (by simp)
  · exact Except.ok.inj h ▸ .stop (by simp)
  · next text =>
    split at h
    · next heq => exact Except.ok.inj h ▸ heq ▸ .epsilon
    · next hne =>
      split at h
      · next hc => exact Except.ok.inj h ▸ .element (.tokenClass hne hc)
      · next hc => exact Except.ok.inj h ▸ .element (.reference hne (by simpa using hc))
  · next mark body =>
    split at h
    · cases h
    · next hb => exact Except.ok.inj h ▸ .element (.literal hb)
  · next body =>
    obtain ⟨members, hm, rfl⟩ := Except.exists_of_map_eq_ok h
    obtain ⟨cs, hcs, hne, rfl⟩ := classMembers_eq_ok_iff.1 hm
    exact .element (.charClass hcs hne)
  · cases h

theorem HasRole.kind {l : Lexeme} {kind : Element.Kind} (h : HasRole l (.element kind)) :
    Kind l kind := by
  cases h with
  | element h => exact h

/-- Only its name stands for the empty string. -/
theorem HasRole.eq_epsilon {l : Lexeme} (h : HasRole l .epsilon) :
    l = .name Terminal.epsilon := by
  cases h with
  | epsilon => rfl

/-- A role that a lexeme has is the one that the reader gives it. -/
theorem HasRole.role_eq {l : Lexeme} {role : Role} (h : HasRole l role) : l.role = .ok role := by
  cases h with
  | element h =>
    cases h with
    | reference hne hc => simp [Lexeme.role, hne, hc]
    | tokenClass hne hc => simp [Lexeme.role, hne, hc]
    | literal hb => simp [Lexeme.role, hb]
    | charClass hcs hne =>
      simp [Lexeme.role, classMembers_eq_ok_iff.2 ⟨_, hcs, hne, rfl⟩, Except.map]
  | epsilon => rfl
  | stop h =>
    simp only [elementStops, List.mem_cons, List.not_mem_nil, or_false] at h
    rcases h with rfl | rfl | rfl <;> rfl

/-! ## Where phrases end -/

/-- No lexemes are left, the next one is one of the marks, or a definition begins. -/
def StopsAt (marks : List Lexeme) (rest : Lexemes) : Prop :=
  beginsDefinition rest = true ∨ ∀ t ∈ rest.head?, t.value ∈ marks

/-- What ends a phrase at some marks ends it at more of them. -/
theorem StopsAt.mono {marks marks' : List Lexeme} {rest : Lexemes} (h : StopsAt marks rest)
    (hm : marks ⊆ marks') : StopsAt marks' rest :=
  h.imp_right fun h t ht => hm (h t ht)

theorem stopsAt_nil (marks : List Lexeme) : StopsAt marks [] := .inr (by simp)

theorem stopsAt_cons {marks : List Lexeme} {t : Located Lexeme} {ts : Lexemes}
    (h : t.value ∈ marks) : StopsAt marks (t :: ts) := .inr (by simpa using h)

/-- A definition begins with a name and an equals sign. -/
theorem beginsDefinition_iff {ts : Lexemes} : beginsDefinition ts = true ↔
    ∃ name place place' us, ts = ⟨.name name, place⟩ :: ⟨.equals, place'⟩ :: us := by
  constructor
  · intro h
    unfold beginsDefinition at h
    split at h
    · exact ⟨_, _, _, _, rfl⟩
    · cases h
  · rintro ⟨name, place, place', us, rfl⟩
    rfl

/-- No phrase ends before the mark behind a name that is defined. -/
theorem StopsAt.ne_equals {marks : List Lexeme} {rest : Lexemes} (h : StopsAt marks rest)
    (hm : Lexeme.equals ∉ marks) : ∀ t ∈ rest.head?, t.value ≠ .equals := by
  intro t ht he
  rcases h with h | h
  · obtain ⟨name, place, place', us, rfl⟩ := beginsDefinition_iff.1 h
    obtain rfl : ⟨.name name, place⟩ = t := by simpa using ht
    cases he
  · exact hm (he ▸ h t ht)

/-- No definition begins with a lexeme that the mark of definitions is not behind. -/
theorem beginsDefinition_cons {t : Located Lexeme} {ts : Lexemes}
    (h : ∀ u ∈ ts.head?, u.value ≠ .equals) : beginsDefinition (t :: ts) = false := by
  rw [Bool.eq_false_iff]
  intro hb
  obtain ⟨name, place, place', us, heq⟩ := beginsDefinition_iff.1 hb
  obtain ⟨-, rfl⟩ := List.cons.inj heq
  exact h ⟨.equals, place'⟩ (by simp) rfl

/-- The place of a text is that of its first lexeme, or of what stands behind it. -/
theorem placeOf_append (behind : Location) (ts us : Lexemes) :
    placeOf (placeOf behind us) ts = placeOf behind (ts ++ us) := by cases ts <;> rfl

/-! ## Elements -/

/-- No element is an equals sign, so a name before an element begins no definition. -/
theorem Phrase.Kind.ne_equals {t : Lexeme} {kind : Element.Kind} (h : Kind t kind) :
    t ≠ .equals := by cases h <;> exact nofun

/-- Reading elements takes nothing where it ends. -/
theorem readElements_of_stopsAt {rest : Lexemes} (h : StopsAt elementStops rest) :
    readElements rest = .ok ((false, []), rest) := by
  cases rest with
  | nil => rfl
  | cons t rest =>
    rw [readElements]
    rcases h with h | h
    · rw [if_pos h]
    · have hrole : t.value.role = .ok .stop := (HasRole.stop (h t (by simp))).role_eq
      simp [hrole]

/-- What the reader of elements takes: names of the empty string if there are no elements, and
elements only if the empty string is not named. -/
structure TakesElements (ts : Lexemes) (epsilon : Bool) (es : List Element) : Prop where
  empty : es = [] → ∀ t ∈ ts, t.value = .name Terminal.epsilon
  elements : epsilon = false → List.Forall₂ Phrase.Element ts es

theorem takesElements_nil : TakesElements [] false [] := ⟨by simp, fun _ => .nil⟩

/-- The reader of elements takes what it should and leaves the rest. -/
theorem exists_of_readElements {ts rest : Lexemes} {epsilon : Bool} {es : List Element}
    (h : readElements ts = .ok ((epsilon, es), rest)) :
    ∃ us, ts = us ++ rest ∧ TakesElements us epsilon es := by
  induction ts generalizing epsilon es rest with
  | nil =>
    cases h
    exact ⟨[], rfl, takesElements_nil⟩
  | cons t ts ih =>
    rw [readElements] at h
    split at h
    · cases h
      exact ⟨[], rfl, takesElements_nil⟩
    · split at h
      · cases h
      · cases h
        exact ⟨[], rfl, takesElements_nil⟩
      · next hrole =>
        split at h
        · cases h
        · next hr =>
          cases h
          obtain ⟨us, rfl, hus⟩ := ih hr
          have ht := (hasRole_of_role hrole).eq_epsilon
          exact ⟨t :: us, rfl, fun he => List.forall_mem_cons.2 ⟨ht, hus.empty he⟩,
            Bool.noConfusion⟩
      · next kind hrole =>
        split at h
        · cases h
        · next hr =>
          cases h
          obtain ⟨us, rfl, hus⟩ := ih hr
          have hkind := (hasRole_of_role hrole).kind
          exact ⟨t :: us, rfl, fun he => absurd he (List.cons_ne_nil _ _),
            fun he => .cons ⟨hkind, rfl⟩ (hus.elements he)⟩

/-- Names of the empty string are read as no elements. -/
theorem readElements_of_epsilon {ts rest : Lexemes}
    (h : ∀ t ∈ ts, t.value = .name Terminal.epsilon) (hrest : StopsAt elementStops rest) :
    ∃ epsilon, readElements (ts ++ rest) = .ok ((epsilon, []), rest) := by
  induction ts with
  | nil => exact ⟨false, readElements_of_stopsAt hrest⟩
  | cons t ts ih =>
    obtain ⟨ht, h⟩ := List.forall_mem_cons.1 h
    obtain ⟨epsilon, hr⟩ := ih h
    have hne : ∀ u ∈ (ts ++ rest).head?, u.value ≠ .equals := by
      cases ts with
      | nil => exact hrest.ne_equals (by decide)
      | cons u ts => simp [h u]
    rw [List.cons_append, readElements, if_neg (by simp [beginsDefinition_cons hne]), ht,
      HasRole.epsilon.role_eq, hr]
    exact ⟨true, rfl⟩

/-- Lexemes of elements are read as these elements. -/
theorem readElements_of_forall₂ {ts rest : Lexemes} {es : List Element}
    (h : List.Forall₂ Phrase.Element ts es) (hrest : StopsAt elementStops rest) :
    readElements (ts ++ rest) = .ok ((false, es), rest) := by
  induction h with
  | nil => exact readElements_of_stopsAt hrest
  | @cons t e ts es he hs ih =>
    have hne : ∀ u ∈ (ts ++ rest).head?, u.value ≠ .equals := by
      cases hs with
      | nil => exact hrest.ne_equals (by decide)
      | cons hu hs => simpa using hu.1.ne_equals
    rw [List.cons_append, readElements, if_neg (by simp [beginsDefinition_cons hne]),
      (HasRole.element he.1).role_eq, ih]
    simp [← he.2]

/-- **The elements of an alternative are read as what they are.** -/
theorem readElements_append {ts rest : Lexemes} {es : List Element} (h : Elements ts es)
    (hrest : StopsAt elementStops rest) :
    ∃ epsilon, readElements (ts ++ rest) = .ok ((epsilon, es), rest) ∧
      (epsilon && !es.isEmpty) = false := by
  cases h with
  | empty h =>
    obtain ⟨epsilon, hr⟩ := readElements_of_epsilon h hrest
    exact ⟨epsilon, hr, by simp⟩
  | elements h hne => exact ⟨false, readElements_of_forall₂ h hrest, rfl⟩

/-- **What is read as the elements of an alternative spells them.** -/
theorem elements_of_readElements {ts rest : Lexemes} {epsilon : Bool} {es : List Element}
    (h : readElements ts = .ok ((epsilon, es), rest)) (hmixed : (epsilon && !es.isEmpty) = false) :
    ∃ us, ts = us ++ rest ∧ Elements us es := by
  obtain ⟨us, rfl, hus⟩ := exists_of_readElements h
  refine ⟨us, rfl, ?_⟩
  rcases eq_or_ne es [] with rfl | hne
  · exact .empty (hus.empty rfl)
  · exact .elements (hus.elements (by simpa [hne] using hmixed)) hne

/-! ## Written actions -/

/-- Indexes are read up to the closing brace. -/
theorem readIndexes_append {opening closing : Location} {ts rest : Lexemes} {ns : List Nat}
    (h : List.Forall₂ Index ts ns) :
    readIndexes opening (ts ++ ⟨.closeBrace, closing⟩ :: rest) = .ok (ns, rest) := by
  induction h with
  | nil => rfl
  | @cons t n ts ns hn _ ih =>
    obtain ⟨digits, ht, rfl, hle⟩ := hn
    rw [List.cons_append, readIndexes, ht]
    simp only [ih, if_neg (Nat.not_lt.2 hle)]

theorem exists_of_readIndexes {opening : Location} {ts rest : Lexemes} {ns : List Nat}
    (h : readIndexes opening ts = .ok (ns, rest)) :
    ∃ us closing, ts = us ++ ⟨.closeBrace, closing⟩ :: rest ∧ List.Forall₂ Index us ns := by
  induction ts generalizing ns rest with
  | nil => cases h
  | cons t ts ih =>
    rw [readIndexes] at h
    split at h
    · next digits ht =>
      split at h
      · cases h
      · next hle =>
        split at h
        · cases h
        · next hr =>
          cases h
          obtain ⟨us, closing, rfl, hus⟩ := ih hr
          exact ⟨t :: us, closing, rfl, .cons ⟨digits, ht, rfl, Nat.le_of_not_lt hle⟩ hus⟩
    · next ht =>
      cases h
      exact ⟨[], t.location, by rw [← ht]; rfl, .nil⟩
    · cases h

/-- Lexemes that begin with a position, or with the closing brace, begin with no name. -/
theorem readName_append {closing : Location} {ts rest : Lexemes} {ns : List Nat}
    (h : List.Forall₂ Index ts ns) : readName (ts ++ ⟨.closeBrace, closing⟩ :: rest) =
      (none, ts ++ ⟨.closeBrace, closing⟩ :: rest) := by
  cases h with
  | nil => rfl
  | @cons t n ts ns hn hs =>
    obtain ⟨value, place⟩ := t
    obtain ⟨digits, rfl, -⟩ := hn
    rfl

/-- An action may begin with a name. -/
theorem readName_cases (ts : Lexemes) :
    (∃ name place us, ts = ⟨.name name, place⟩ :: us ∧ readName ts = (some name, us)) ∨
      readName ts = (none, ts) := by
  unfold readName
  split
  · exact .inl ⟨_, _, _, rfl, rfl⟩
  · exact .inr rfl

/-- **A written action is read as what it is**, from behind its open brace on. -/
theorem readAction_append {opening : Location} {ts rest : Lexemes} {a : Option WrittenAction}
    (h : Phrase.Action (⟨.openBrace, opening⟩ :: ts) a) :
    readAction opening (ts ++ rest) = .ok (a, rest) := by
  cases h with
  | empty => rfl
  | forward h hne =>
    rw [List.append_assoc, List.singleton_append, readAction, readName_append h,
      readIndexes_append h]
    simp [hne]
  | named h =>
    rw [List.cons_append, List.append_assoc, List.singleton_append, readAction, readName,
      readIndexes_append h]
    rfl

/-- **What is read as a written action spells it.** -/
theorem action_of_readAction {opening : Location} {ts rest : Lexemes} {a : Option WrittenAction}
    (h : readAction opening ts = .ok (a, rest)) :
    ∃ us, ts = us ++ rest ∧ Phrase.Action (⟨.openBrace, opening⟩ :: us) a := by
  unfold readAction at h
  split at h
  · cases h
  · next indexes rest' hr =>
    obtain ⟨us, closing, hus, hs⟩ := exists_of_readIndexes hr
    rcases readName_cases ts with ⟨name, place, vs, rfl, hname⟩ | hname
    · rw [hname] at h hus
      obtain rfl : vs = _ := hus
      cases h
      exact ⟨⟨.name name, place⟩ :: (us ++ [⟨.closeBrace, closing⟩]), by simp, .named hs⟩
    · rw [hname] at h hus
      obtain rfl : ts = _ := hus
      cases h
      refine ⟨us ++ [⟨.closeBrace, closing⟩], by simp, ?_⟩
      cases hs with
      | nil => exact .empty
      | cons hn hs => exact .forward (.cons hn hs) nofun

/-! ## Alternatives -/

/-- The marks that end an alternative. -/
abbrev alternativeStops : List Lexeme := [.bar, .semicolon]

/-- The mark that may end a definition. -/
abbrev definitionStops : List Lexeme := [.semicolon]

/-- No phrase ends before another mark. -/
theorem StopsAt.not_mark {marks : List Lexeme} {mark : Lexeme} {place : Location} {rest : Lexemes}
    (h : StopsAt marks (⟨mark, place⟩ :: rest)) (hm : mark ∉ marks)
    (hname : ∀ name, mark ≠ .name name) : False := by
  rcases h with h | h
  · obtain ⟨name, place', _, _, heq⟩ := beginsDefinition_iff.1 h
    exact hname name (Located.mk.inj (List.cons.inj heq).1).1
  · exact hm (h ⟨mark, place⟩ rfl)

/-- Elements end before an action, and where an alternative ends if there is none. -/
theorem Phrase.Action.stopsAt {us rest : Lexemes} {a : Option WrittenAction}
    (h : Phrase.Action us a) (hrest : StopsAt alternativeStops rest) :
    StopsAt elementStops (us ++ rest) := by
  cases h with
  | absent => exact hrest.mono (by decide)
  | _ => exact stopsAt_cons (by simp)

/-- **An alternative is read as what it is.** -/
theorem readAlternative_append {finish : Location} {ts rest : Lexemes} {a : Alternative}
    (h : Phrase.Alternative (placeOf finish rest) ts a) (hrest : StopsAt alternativeStops rest) :
    readAlternative finish (ts ++ rest) = .ok (a, rest) := by
  obtain @⟨ts, us, elements, action, he, ha⟩ := h
  obtain ⟨epsilon, hr, hmixed⟩ := readElements_append he (ha.stopsAt hrest)
  unfold readAlternative
  rw [List.append_assoc, hr, placeOf_append, List.append_assoc]
  simp only [hmixed, Bool.false_eq_true, if_false]
  cases ha with
  | absent =>
    rw [List.nil_append]
    split
    · exact (hrest.not_mark (by decide) nofun).elim
    · rfl
  | empty => rfl
  | forward hs hne =>
    rw [List.cons_append]
    simp only [readAction_append (.forward hs hne)]
  | named hs =>
    rw [List.cons_append]
    simp only [readAction_append (.named hs)]

/-- An alternative before other lexemes has the place of the first lexeme of them all. -/
theorem Phrase.Alternative.mk_append (finish : Location) (rest : Lexemes) {ts us : Lexemes}
    {es : List Grammar.Element} {action : Option WrittenAction} (he : Elements ts es)
    (ha : Phrase.Action us action) : Phrase.Alternative (placeOf finish rest) (ts ++ us)
      ⟨es, action, placeOf finish (ts ++ us ++ rest)⟩ := by
  rw [← placeOf_append]
  exact .mk he ha

/-- **What is read as an alternative spells it.** -/
theorem alternative_of_readAlternative {finish : Location} {ts rest : Lexemes} {a : Alternative}
    (h : readAlternative finish ts = .ok (a, rest)) :
    ∃ us, ts = us ++ rest ∧ Phrase.Alternative (placeOf finish rest) us a := by
  unfold readAlternative at h
  simp only at h
  split at h
  · cases h
  · next epsilon elements rest' hr =>
    split at h
    · cases h
    · next hmixed =>
      obtain ⟨us, rfl, hus⟩ := elements_of_readElements hr (by simpa using hmixed)
      split at h
      · next opening rest'' =>
        split at h
        · cases h
        · next ha =>
          cases h
          obtain ⟨vs, rfl, hvs⟩ := action_of_readAction ha
          exact ⟨us ++ ⟨.openBrace, opening⟩ :: vs, by simp,
            by simpa using Phrase.Alternative.mk_append finish rest hus hvs⟩
      · cases h
        exact ⟨us, rfl, by simpa using Phrase.Alternative.mk_append finish rest hus .absent⟩

/-- **Alternatives are read as what they are.** -/
theorem readAlternatives_append {finish : Location} {ts rest : Lexemes} {as : List Alternative}
    (h : Phrase.Alternatives (placeOf finish rest) ts as) (hrest : StopsAt definitionStops rest) :
    readAlternatives finish (ts ++ rest) = .ok (as, rest) := by
  induction h with
  | @single ts a h =>
    have ha := readAlternative_append h (hrest.mono (by decide))
    rw [readAlternatives]
    split
    · next he => cases he.symm.trans ha
    · next hb =>
      cases ha.symm.trans hb
      exact (hrest.not_mark (by decide) fun _ => Lexeme.noConfusion).elim
    · next hb =>
      cases ha.symm.trans hb
      rfl
  | @bar ts us place a as h hs ih =>
    have ha : readAlternative finish (ts ++ ⟨.bar, place⟩ :: (us ++ rest)) =
        .ok (a, ⟨.bar, place⟩ :: (us ++ rest)) := readAlternative_append h (stopsAt_cons (by simp))
    rw [List.append_assoc, List.cons_append, readAlternatives]
    split
    · next he => cases he.symm.trans ha
    · next hb =>
      cases ha.symm.trans hb
      simp only [ih]
    · next hne hb =>
      cases ha.symm.trans hb
      exact (hne _ _ rfl).elim

/-- **What is read as alternatives spells them.** -/
theorem alternatives_of_readAlternatives {finish : Location} {ts rest : Lexemes}
    {as : List Alternative} (h : readAlternatives finish ts = .ok (as, rest)) :
    ∃ us, ts = us ++ rest ∧ Phrase.Alternatives (placeOf finish rest) us as := by
  fun_induction readAlternatives finish ts generalizing as rest with
  | case1 => cases h
  | case2 => cases h
  | case3 ts alternative place rest' ha hlt alternatives rest'' hr ih =>
    cases h
    obtain ⟨us, rfl, hus⟩ := alternative_of_readAlternative ha
    obtain ⟨vs, rfl, hvs⟩ := ih hr
    exact ⟨us ++ ⟨.bar, place⟩ :: vs, by simp, .bar hus hvs⟩
  | case4 ts alternative rest' _ ha =>
    cases h
    obtain ⟨us, rfl, hus⟩ := alternative_of_readAlternative ha
    exact ⟨us, rfl, .single hus⟩

/-! ## Definitions -/

/-- The end of a definition is found where one can be, and a semicolon that it takes is none that
the definitions behind it would miss. -/
theorem exists_readEnd (finish : Location) {ts : Lexemes} (h : StopsAt definitionStops ts) :
    ∃ rest, readEnd ts = .ok ((), rest) ∧
      readDefinitions finish rest = readDefinitions finish ts := by
  cases ts with
  | nil => exact ⟨[], rfl, rfl⟩
  | cons t ts =>
    rcases h with h | h
    · have ht : t.value ≠ .semicolon := by
        obtain ⟨name, place, _, _, heq⟩ := beginsDefinition_iff.1 h
        rw [(List.cons.inj heq).1]
        exact nofun
      exact ⟨t :: ts, by rw [readEnd, if_neg ht, if_pos h], rfl⟩
    · have ht : t.value = .semicolon := List.mem_singleton.1 (h t rfl)
      exact ⟨ts, by rw [readEnd, if_pos ht], by rw [readDefinitions, if_pos ht]⟩

theorem eq_of_readEnd {ts rest : Lexemes} {u : Unit} (h : readEnd ts = .ok (u, rest)) :
    ts = rest ∨ ∃ place, ts = ⟨.semicolon, place⟩ :: rest := by
  unfold readEnd at h
  split at h
  · cases h
    exact .inl rfl
  · next t ts =>
    split at h
    · next ht =>
      cases h
      exact .inr ⟨t.location, by rw [← ht]⟩
    · split at h
      · cases h
        exact .inl rfl
      · cases h

/-- A body is made of alternatives, with a semicolon behind them or without. -/
theorem exists_of_readBody {finish : Location} {ts rest : Lexemes} {as : List Alternative}
    (h : readBody finish ts = .ok (as, rest)) :
    ∃ us vs, ts = us ++ vs ∧ Phrase.Alternatives (placeOf finish vs) us as ∧
      (vs = rest ∨ ∃ place, vs = ⟨.semicolon, place⟩ :: rest) := by
  unfold readBody at h
  split at h
  · cases h
  · next ha =>
    split at h
    · cases h
    · next he =>
      cases h
      obtain ⟨us, rfl, hus⟩ := alternatives_of_readAlternatives ha
      exact ⟨us, _, rfl, hus, eq_of_readEnd he⟩

theorem exists_of_readHead {finish : Location} {t : Located Lexeme} {ts rest : Lexemes}
    {name : String} (h : readHead finish t ts = .ok (name, rest)) :
    t.value = .name name ∧ ∃ place, ts = ⟨.equals, place⟩ :: rest := by
  unfold readHead at h
  split at h
  · next ht =>
    cases h
    exact ⟨ht, _, rfl⟩
  · cases h
  · cases h

/-- **What is read as the definitions of a text spells them**, and their names are its names. -/
theorem definitions_of_readDefinitions {finish : Location} {ts : Lexemes} {ds : List Definition}
    (h : (readDefinitions finish ts).outcome = .ok ds) :
    Definitions finish ts ds ∧ (readDefinitions finish ts).names = ds.map (·.name) := by
  fun_induction readDefinitions finish ts generalizing ds with
  | case1 =>
    obtain rfl := Except.ok.inj h
    exact ⟨.nil, rfl⟩
  | case2 t ts ht ih =>
    obtain ⟨value, place⟩ := t
    obtain rfl : value = .semicolon := ht
    exact (ih h).imp_left .semicolon
  | case3 => cases h
  | case4 => cases h
  | @case5 t ts ht name body hh alternatives rest hb hlt reading ih =>
    obtain ⟨value, place⟩ := t
    obtain ⟨rfl, place', rfl⟩ : value = .name name ∧ _ := exists_of_readHead hh
    obtain ⟨us, vs, rfl, hus, hvs⟩ := exists_of_readBody hb
    obtain ⟨ds', hds', rfl⟩ := Except.exists_of_map_eq_ok h
    obtain ⟨hrest, hnames⟩ := ih hds'
    have hsuffix : Definitions finish vs ds' := by
      rcases hvs with rfl | ⟨place, rfl⟩
      · exact hrest
      · exact .semicolon hrest
    exact ⟨.definition (.mk hus) hsuffix, congrArg _ hnames⟩

theorem Phrase.Definitions.stopsAt {finish : Location} {ts : Lexemes}
    {ds : List Grammar.Definition}
    (h : Definitions finish ts ds) : StopsAt definitionStops ts := by
  cases h with
  | nil => exact stopsAt_nil _
  | semicolon => exact stopsAt_cons (by simp)
  | definition h =>
    obtain ⟨h⟩ := h
    exact .inl rfl

/-- **The definitions of a text are read as what they are.** -/
theorem readDefinitions_of_definitions {finish : Location} {ts : Lexemes} {ds : List Definition}
    (h : Definitions finish ts ds) : readDefinitions finish ts = ⟨ds.map (·.name), .ok ds⟩ := by
  induction h with
  | nil => rw [readDefinitions]; rfl
  | semicolon h ih => rw [readDefinitions, if_pos rfl, ih]
  | @definition ts us d ds h hs ih =>
    obtain @⟨name, place, place', ts, as, h⟩ := h
    obtain ⟨rest, hend, hrest⟩ := exists_readEnd finish hs.stopsAt
    have hbody : readBody finish (ts ++ us) = .ok (as, rest) := by
      rw [readBody, readAlternatives_append h hs.stopsAt]
      simp only [hend]
    rw [List.cons_append, List.cons_append, readDefinitions, if_neg Lexeme.noConfusion]
    split
    · next he => cases he
    · next hh =>
      cases hh
      split
      · next he => cases he.symm.trans hbody
      · next hb =>
        cases hb.symm.trans hbody
        simp only [hrest, ih]
        rfl

/-- **A text has one reading.** -/
theorem Phrase.Definitions.unique {finish : Location} {ts : Lexemes}
    {ds ds' : List Grammar.Definition} (h : Definitions finish ts ds)
    (h' : Definitions finish ts ds') : ds = ds' := by
  have heq := (readDefinitions_of_definitions h).symm.trans (readDefinitions_of_definitions h')
  exact Except.ok.inj (Reading.mk.inj heq).2

end ShiftReduce.Grammar

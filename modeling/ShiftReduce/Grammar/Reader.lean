import ShiftReduce.Grammar
import ShiftReduce.Grammar.Scanner
import ShiftReduce.Text.Printable

/-!
# Grammar/Reader — definitions from lexemes

    source      = { ";" } definition { { ";" } definition } { ";" }
    definition  = name "=" alternative { "|" alternative }
    alternative = ( { "EPSILON" } | element { element } ) [ action ]
    element     = name | quoted | charClass
    action      = "{" [ name ] { number } "}"

A semicolon may end a definition, but need not: a name before `=` begins the next one, which is why
the readers of elements look two lexemes ahead.  Each reader returns the lexemes that it leaves, and
the `length` lemmas say that they are fewer.
-/

namespace ShiftReduce.Grammar

/-- Lexemes with their places. -/
abbrev Lexemes := List (Located Lexeme)

/-- What a reader yields: a value and the lexemes behind it, or a misreading. -/
abbrev Read (α : Type) := Except (Located Misreading) (α × Lexemes)

/-- The place of the next lexeme, or of the end. -/
def placeOf (finish : Location) : Lexemes → Location
  | [] => finish
  | t :: _ => t.location

/-- A name before `=` begins a definition. -/
def beginsDefinition : Lexemes → Bool
  | ⟨.name _, _⟩ :: ⟨.equals, _⟩ :: _ => true
  | _ => false

/-! ## Elements -/

/-- A name in capitals, digits and underscores, with at least one letter, is a class of tokens. -/
def isTokenClass (name : String) : Bool :=
  name.toList.any Char.isUpper &&
    name.toList.all fun c => c.isUpper || c.isDigit || c == '_'

/-- The characters from `first` to `last`. -/
def charRange (first last : Char) : List Char :=
  (List.range (last.toNat + 1 - first.toNat)).map fun n => Char.ofNat (first.toNat + n)

/-- The characters that a class body stands for.  A hyphen between two letters or digits is a range,
and any other hyphen is itself. -/
def expandClass : List Char → Except Misreading (List Char)
  | [] => .ok []
  | c :: '-' :: last :: rest =>
    if c.isAlphanum && last.isAlphanum then
      if last < c then .error (.reversedRange c last)
      else (expandClass rest).map (charRange c last ++ ·)
    else (expandClass ('-' :: last :: rest)).map (c :: ·)
  | c :: rest => (expandClass rest).map (c :: ·)
termination_by cs => cs.length

/-- The members of a class, each once, blanks left out. -/
def classMembers (body : String) : Except Misreading (List String) := do
  let members ← expandClass (body.toList.filter (!Text.isBlank ·))
  if members.isEmpty then .error .emptyClass
  else .ok (members.eraseDups.map Char.toString)

/-- What a lexeme is within an alternative. -/
inductive Role where
  | element (kind : Element.Kind)
  /-- The reserved name of the empty string. -/
  | epsilon
  /-- The alternative ends before the lexeme. -/
  | stop

/-- The role of a lexeme within an alternative. -/
def Lexeme.role : Lexeme → Except Misreading Role
  | .bar | .semicolon | .openBrace => .ok .stop
  | .name text =>
    if text = Terminal.epsilon then .ok .epsilon
    else if isTokenClass text then .ok (.element (.tokenClass text))
    else .ok (.element (.reference text))
  | .quoted _ body => if body = "" then .error .emptyLiteral else .ok (.element (.literal body))
  | .charClass body => (classMembers body).map fun members => .element (.charClass body members)
  | found => .error (.unexpected found)

/-- The elements of an alternative, and whether the empty string is named among them. -/
def readElements : Lexemes → Read (Bool × List Element)
  | [] => .ok ((false, []), [])
  | t :: ts =>
    if beginsDefinition (t :: ts) then .ok ((false, []), t :: ts)
    else match t.value.role with
      | .error e => .error ⟨e, t.location⟩
      | .ok .stop => .ok ((false, []), t :: ts)
      | .ok .epsilon => match readElements ts with
        | .error e => .error e
        | .ok ((_, elements), rest) => .ok ((true, elements), rest)
      | .ok (.element kind) => match readElements ts with
        | .error e => .error e
        | .ok ((epsilon, elements), rest) => .ok ((epsilon, ⟨kind, t.location⟩ :: elements), rest)

theorem length_of_readElements {ts rest : Lexemes} {v : Bool × List Element}
    (h : readElements ts = .ok (v, rest)) : rest.length ≤ ts.length := by
  induction ts generalizing v rest with
  | nil => simp_all [readElements]
  | cons t ts ih =>
    rw [readElements] at h
    split at h
    · simp_all
    · split at h
      · exact absurd h (by simp)
      · simp_all
      all_goals
        split at h
        · exact absurd h (by simp)
        · next hr =>
          have := ih hr
          simp only [Except.ok.injEq, Prod.mk.injEq] at h
          simp only [List.length_cons, ← h.2]; omega

/-! ## Written actions -/

/-- The largest position that a written action can name. -/
def maxIndex : Nat := 255

/-- The positions of a written action and its closing brace; `opening` is the place of the open
one. -/
def readIndexes (opening : Location) : Lexemes → Read (List Nat)
  | [] => .error ⟨.openAction none, opening⟩
  | t :: ts =>
    match t.value with
    | .number digits =>
      if maxIndex < Double.natOfDigits digits.toList then .error ⟨.indexTooLarge digits, t.location⟩
      else match readIndexes opening ts with
        | .error e => .error e
        | .ok (indexes, rest) => .ok (Double.natOfDigits digits.toList :: indexes, rest)
    | .closeBrace => .ok ([], ts)
    | found => .error ⟨.openAction (some found), opening⟩

theorem length_of_readIndexes {opening : Location} {ts rest : Lexemes} {v : List Nat}
    (h : readIndexes opening ts = .ok (v, rest)) : rest.length < ts.length := by
  induction ts generalizing v rest with
  | nil => exact absurd h (by simp [readIndexes])
  | cons t ts ih =>
    rw [readIndexes] at h
    split at h
    · split at h
      · exact absurd h (by simp)
      · split at h
        · exact absurd h (by simp)
        · next hr =>
          have := ih hr
          simp only [Except.ok.injEq, Prod.mk.injEq] at h
          simp only [List.length_cons, ← h.2]; omega
    · simp_all
    · exact absurd h (by simp)

/-- The name of a written action, if it begins with one. -/
def readName : Lexemes → Option String × Lexemes
  | ⟨.name name, _⟩ :: ts => (some name, ts)
  | ts => (none, ts)

theorem length_readName (ts : Lexemes) : (readName ts).2.length ≤ ts.length := by
  unfold readName; split <;> simp

/-- A written action from behind its open brace on; empty braces are none. -/
def readAction (opening : Location) (ts : Lexemes) : Read (Option WrittenAction) :=
  match readIndexes opening (readName ts).2 with
  | .error e => .error e
  | .ok (indexes, rest) =>
    let name := (readName ts).1
    .ok (if name.isNone && indexes.isEmpty then none else some ⟨name, indexes, opening⟩, rest)

theorem length_of_readAction {opening : Location} {ts rest : Lexemes} {v : Option WrittenAction}
    (h : readAction opening ts = .ok (v, rest)) : rest.length < ts.length := by
  unfold readAction at h
  split at h
  · exact absurd h (by simp)
  · next hr =>
    have h1 := length_of_readIndexes hr
    have h2 := length_readName ts
    simp only [Except.ok.injEq, Prod.mk.injEq] at h
    rw [← h.2]; omega

/-! ## Alternatives -/

/-- An alternative. -/
def readAlternative (finish : Location) (ts : Lexemes) : Read Alternative :=
  let location := placeOf finish ts
  match readElements ts with
  | .error e => .error e
  | .ok ((epsilon, elements), rest) =>
    if epsilon && !elements.isEmpty then .error ⟨.mixedEpsilon, location⟩
    else match rest with
      | ⟨.openBrace, opening⟩ :: rest =>
        match readAction opening rest with
        | .error e => .error e
        | .ok (action, rest) => .ok (⟨elements, action, location⟩, rest)
      | rest => .ok (⟨elements, none, location⟩, rest)

theorem length_of_readAlternative {finish : Location} {ts rest : Lexemes} {v : Alternative}
    (h : readAlternative finish ts = .ok (v, rest)) : rest.length ≤ ts.length := by
  unfold readAlternative at h
  simp only at h
  split at h
  · exact absurd h (by simp)
  · next hr =>
    have hle := length_of_readElements hr
    split at h
    · exact absurd h (by simp)
    · split at h
      · split at h
        · exact absurd h (by simp)
        · next ha =>
          have := length_of_readAction ha
          simp only [Except.ok.injEq, Prod.mk.injEq] at h
          simp only [List.length_cons] at hle
          rw [← h.2]; omega
      · simp only [Except.ok.injEq, Prod.mk.injEq] at h
        rw [← h.2]; exact hle

/-- Alternatives with bars between them. -/
def readAlternatives (finish : Location) (ts : Lexemes) : Read (List Alternative) :=
  match h : readAlternative finish ts with
  | .error e => .error e
  | .ok (alternative, ⟨.bar, _⟩ :: rest) =>
    have : rest.length < ts.length := by
      have := length_of_readAlternative h
      simp only [List.length_cons] at this; omega
    match readAlternatives finish rest with
    | .error e => .error e
    | .ok (alternatives, rest) => .ok (alternative :: alternatives, rest)
  | .ok (alternative, rest) => .ok ([alternative], rest)
termination_by ts.length

theorem length_of_readAlternatives {finish : Location} {ts rest : Lexemes} {v : List Alternative}
    (h : readAlternatives finish ts = .ok (v, rest)) : rest.length ≤ ts.length := by
  fun_induction readAlternatives finish ts generalizing v rest with
  | case1 => exact absurd h (by simp)
  | case2 => exact absurd h (by simp)
  | case3 ts alternative place rest' ha hlt alternatives rest'' hr ih =>
    simp only [Except.ok.injEq, Prod.mk.injEq] at h
    have := ih hr
    rw [← h.2]; omega
  | case4 ts alternative rest' _ ha =>
    simp only [Except.ok.injEq, Prod.mk.injEq] at h
    rw [← h.2]; exact length_of_readAlternative ha

/-! ## Definitions -/

/-- What ends a definition: a semicolon, which is taken, the next definition, or the end. -/
def readEnd : Lexemes → Read Unit
  | [] => .ok ((), [])
  | t :: ts =>
    if t.value = .semicolon then .ok ((), ts)
    else if beginsDefinition (t :: ts) then .ok ((), t :: ts)
    else .error ⟨.noSeparator t.value, t.location⟩

theorem length_of_readEnd {ts rest : Lexemes} {u : Unit} (h : readEnd ts = .ok (u, rest)) :
    rest.length ≤ ts.length := by
  unfold readEnd at h
  split at h
  · simp_all
  · split at h
    · simp_all
    · split at h
      · simp_all
      · exact absurd h (by simp)

/-- The alternatives of a definition and its end. -/
def readBody (finish : Location) (ts : Lexemes) : Read (List Alternative) :=
  match readAlternatives finish ts with
  | .error e => .error e
  | .ok (alternatives, rest) => match readEnd rest with
    | .error e => .error e
    | .ok (_, rest) => .ok (alternatives, rest)

theorem length_of_readBody {finish : Location} {ts rest : Lexemes} {v : List Alternative}
    (h : readBody finish ts = .ok (v, rest)) : rest.length ≤ ts.length := by
  unfold readBody at h
  split at h
  · exact absurd h (by simp)
  · next ha =>
    split at h
    · exact absurd h (by simp)
    · next he =>
      have h1 := length_of_readAlternatives ha
      have h2 := length_of_readEnd he
      simp only [Except.ok.injEq, Prod.mk.injEq] at h
      rw [← h.2]; omega

/-- The name of a definition and the mark behind it. -/
def readHead (finish : Location) (t : Located Lexeme) (ts : Lexemes) : Read String :=
  match t.value, ts with
  | .name name, ⟨.equals, _⟩ :: rest => .ok (name, rest)
  | .name name, ts => .error ⟨.missingEquals name, placeOf finish ts⟩
  | found, _ => .error ⟨.noRuleName found, t.location⟩

theorem length_of_readHead {finish : Location} {t : Located Lexeme} {ts rest : Lexemes}
    {name : String} (h : readHead finish t ts = .ok (name, rest)) : rest.length < ts.length := by
  unfold readHead at h
  split at h
  · simp_all
  · exact absurd h (by simp)
  · exact absurd h (by simp)

/-- A reading of a whole text: the names of the definitions begun, the last of which may have a
misread body, and the definitions or the misreading. -/
structure Reading where
  names : List String
  outcome : Except (Located Misreading) (List Definition)

/-- The definitions of a text, with any number of semicolons between them. -/
def readDefinitions (finish : Location) : Lexemes → Reading
  | [] => ⟨[], .ok []⟩
  | t :: ts =>
    if t.value = .semicolon then readDefinitions finish ts
    else match hh : readHead finish t ts with
      | .error e => ⟨[], .error e⟩
      | .ok (name, body) =>
        match hb : readBody finish body with
        | .error e => ⟨[name], .error e⟩
        | .ok (alternatives, rest) =>
          have : rest.length < ts.length + 1 := by
            have h1 := length_of_readHead hh
            have h2 := length_of_readBody hb
            omega
          let reading := readDefinitions finish rest
          ⟨name :: reading.names,
            reading.outcome.map (⟨name, alternatives, t.location⟩ :: ·)⟩
termination_by ts => ts.length

end ShiftReduce.Grammar

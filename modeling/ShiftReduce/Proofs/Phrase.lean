import Mathlib.Data.List.Forall2
import ShiftReduce.Grammar.Reader

/-!
# Proofs/Phrase — the notation of grammar texts

    source      = { ";" } definition { { ";" } definition } { ";" }
    definition  = name "=" alternative { "|" alternative }
    alternative = ( { "EPSILON" } | element { element } ) [ action ]
    element     = name | quoted | charClass
    action      = "{" [ name ] { number } "}"

One relation for each phrase of the notation, between the lexemes that spell it and what they mean.
Nothing here looks ahead or leaves lexemes over: where one phrase ends and the next begins is up to
the concatenations, and the semicolons between definitions decide nothing.  An alternative may have
no lexemes of its own; its place is then that of whatever comes behind it, which `behind` stands
for.
-/

namespace ShiftReduce.Grammar.Phrase

/-! ## Classes of characters -/

/-- The characters from `first` to `last`, in ascending order. -/
structure Range (first last : Char) (cs : List Char) : Prop where
  ascending : cs.Pairwise (· < ·)
  mem_iff : ∀ c, c ∈ cs ↔ first ≤ c ∧ c ≤ last

/-- A letter or digit, a hyphen, and another letter or digit. -/
def BeginsRange : List Char → Prop
  | first :: '-' :: last :: _ => first.isAlphanum = true ∧ last.isAlphanum = true
  | _ => False

/-- The characters that a class body without blanks stands for, which has no range in descending
order. -/
inductive Class : List Char → List Char → Prop
  | nil : Class [] []
  | range {first last : Char} {cs members body rest : List Char}
      (h : BeginsRange (first :: '-' :: last :: body)) (hle : first ≤ last)
      (hr : Range first last cs) (hb : Class body rest) (hm : members = cs ++ rest) :
      Class (first :: '-' :: last :: body) members
  | char {c : Char} {body members : List Char} (h : ¬ BeginsRange (c :: body))
      (hb : Class body members) : Class (c :: body) (c :: members)

/-! ## Elements -/

/-- A lexeme that is an element, and what it matches. -/
inductive Kind : Lexeme → Element.Kind → Prop
  | reference {name : String} (hne : name ≠ Terminal.epsilon) (h : isTokenClass name = false) :
      Kind (.name name) (.reference name)
  | tokenClass {name : String} (hne : name ≠ Terminal.epsilon) (h : isTokenClass name = true) :
      Kind (.name name) (.tokenClass name)
  | literal {mark : Char} {body : String} (h : body ≠ "") : Kind (.quoted mark body) (.literal body)
  | charClass {body : String} {members : List Char}
      (h : Class (body.toList.filter (!Text.isBlank ·)) members) (hne : members ≠ []) :
      Kind (.charClass body) (.charClass body (members.eraseDups.map Char.toString))

/-- A lexeme that is an element, at its place. -/
def Element (t : Located Lexeme) (e : Grammar.Element) : Prop :=
  Kind t.value e.kind ∧ e.location = t.location

/-- The elements of an alternative, or any number of times the name of the empty string. -/
inductive Elements : Lexemes → List Grammar.Element → Prop
  | empty {ts : Lexemes} (h : ∀ t ∈ ts, t.value = .name Terminal.epsilon) : Elements ts []
  | elements {ts : Lexemes} {es : List Grammar.Element} (h : List.Forall₂ Element ts es)
      (hne : es ≠ []) : Elements ts es

/-! ## Written actions -/

/-- A number that is not too large for a position. -/
def Index (t : Located Lexeme) (n : Nat) : Prop :=
  ∃ digits, t.value = .number digits ∧ Double.natOfDigits digits.toList = n ∧ n ≤ maxIndex

/-- A written action, if there is one; empty braces are none. -/
inductive Action : Lexemes → Option WrittenAction → Prop
  | absent : Action [] none
  | empty {opening closing : Location} :
      Action [⟨.openBrace, opening⟩, ⟨.closeBrace, closing⟩] none
  | forward {opening closing : Location} {ts : Lexemes} {indexes : List Nat}
      (h : List.Forall₂ Index ts indexes) (hne : indexes ≠ []) :
      Action (⟨.openBrace, opening⟩ :: (ts ++ [⟨.closeBrace, closing⟩]))
        (some ⟨none, indexes, opening⟩)
  | named {opening place closing : Location} {name : String} {ts : Lexemes} {indexes : List Nat}
      (h : List.Forall₂ Index ts indexes) :
      Action (⟨.openBrace, opening⟩ :: ⟨.name name, place⟩ :: (ts ++ [⟨.closeBrace, closing⟩]))
        (some ⟨some name, indexes, opening⟩)

/-! ## Alternatives and definitions -/

/-- An alternative with the place `behind` it. -/
inductive Alternative (behind : Location) : Lexemes → Grammar.Alternative → Prop
  | mk {ts us : Lexemes} {elements : List Grammar.Element} {action : Option WrittenAction}
      (he : Elements ts elements) (ha : Action us action) :
      Alternative behind (ts ++ us) ⟨elements, action, placeOf behind (ts ++ us)⟩

/-- Alternatives with bars between them. -/
inductive Alternatives (behind : Location) : Lexemes → List Grammar.Alternative → Prop
  | single {ts : Lexemes} {a : Grammar.Alternative} (h : Alternative behind ts a) :
      Alternatives behind ts [a]
  | bar {ts us : Lexemes} {place : Location} {a : Grammar.Alternative}
      {as : List Grammar.Alternative} (h : Alternative place ts a)
      (hs : Alternatives behind us as) : Alternatives behind (ts ++ ⟨.bar, place⟩ :: us) (a :: as)

/-- A name and the alternatives that it is defined by. -/
inductive Definition (behind : Location) : Lexemes → Grammar.Definition → Prop
  | mk {name : String} {place place' : Location} {ts : Lexemes} {as : List Grammar.Alternative}
      (h : Alternatives behind ts as) :
      Definition behind (⟨.name name, place⟩ :: ⟨.equals, place'⟩ :: ts) ⟨name, as, place⟩

/-- Definitions, with any number of semicolons before, between and behind them. -/
inductive Definitions (finish : Location) : Lexemes → List Grammar.Definition → Prop
  | nil : Definitions finish [] []
  | semicolon {place : Location} {ts : Lexemes} {ds : List Grammar.Definition}
      (h : Definitions finish ts ds) : Definitions finish (⟨.semicolon, place⟩ :: ts) ds
  | definition {ts us : Lexemes} {d : Grammar.Definition} {ds : List Grammar.Definition}
      (h : Definition (placeOf finish us) ts d) (hs : Definitions finish us ds) :
      Definitions finish (ts ++ us) (d :: ds)

/-- The definitions of a whole text, which has at least one. -/
structure Source (finish : Location) (ts : Lexemes) (ds : List Grammar.Definition) : Prop where
  definitions : Definitions finish ts ds
  ne_nil : ds ≠ []

end ShiftReduce.Grammar.Phrase

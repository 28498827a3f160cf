import ShiftReduce.Token

/-!
# Token/Lexer — tokens of a program text

At each place the longest lexeme that begins there is taken: `lexeme` looks at a character and at
what follows, and says what begins here and how many further characters belong to it.  Blanks and
comments yield nothing; a lexeme that is no token yields an error, and reading goes on behind it.
-/

namespace ShiftReduce.Lexer

/-- Why a lexeme is no token. -/
inductive Problem where
  | unrecognized
  | invalidNumber
deriving DecidableEq, Repr

/-- A lexeme that is no token. -/
structure Error where
  problem : Problem
  text : String
  location : Location
deriving DecidableEq, Repr

/-- The wording of an error. -/
def Error.message (e : Error) : String :=
  let what := match e.problem with
    | .unrecognized => "unrecognized input"
    | .invalidNumber => "invalid number literal"
  e.location.render ++ ": " ++ what ++ " `" ++ e.text ++ "`"

/-- How a text is read: the words that are keywords, and whether line feeds are tokens. -/
structure Settings where
  keywords : List String := Terminal.reservedWords
  newlines : Bool := false

/-! ## Lexemes -/

/-- What a lexeme is. -/
inductive Shape where
  | blank
  | newline
  | int
  | float
  | word
  | str
  | char
  | operator
  | stray
deriving DecidableEq, Repr

def isBlank (c : Char) : Bool := c == ' ' || c == '\t' || c == '\r' || c == '\x0c'

/-- A letter or an underscore begins a word. -/
def beginsWord (c : Char) : Bool := c.isAlpha || c == '_'

/-- Letters, digits and underscores continue a word. -/
def continuesWord (c : Char) : Bool := c.isAlphanum || c == '_'

/-- The number of characters at the front that satisfy `p`. -/
def run (p : Char → Bool) (cs : List Char) : Nat := (cs.takeWhile p).length

/-- The length of a point and the digits behind it, if there are any. -/
def fractionLength : List Char → Nat
  | '.' :: cs => match run Char.isDigit cs with
    | 0 => 0
    | n + 1 => n + 2
  | _ => 0

/-- The length of an exponent: a mark, an optional sign and digits. -/
def exponentLength : List Char → Nat
  | mark :: cs =>
    let sign := match cs with
      | '+' :: _ => 1
      | '-' :: _ => 1
      | _ => 0
    match run Char.isDigit (cs.drop sign) with
    | 0 => 0
    | n + 1 => if mark == 'e' || mark == 'E' then sign + n + 2 else 0
  | [] => 0

/-- What follows the first digit of a number.  Without digits behind the point the number ends
before it. -/
def numberTail (cs : List Char) : Shape × Nat :=
  let whole := run Char.isDigit cs
  match fractionLength (cs.drop whole) with
  | 0 => (.int, whole)
  | fraction => (.float, whole + fraction + exponentLength (cs.drop (whole + fraction)))

/-- The length of the body of a string, and whether a quote closes it.  A backslash takes any
character but a line feed with it. -/
def stringBody : List Char → Nat × Bool
  | [] => (0, false)
  | '\\' :: [] => (0, false)
  | '\\' :: c :: cs =>
    if c = '\n' then (0, false) else let (n, closed) := stringBody cs; (n + 2, closed)
  | c :: cs =>
    if c = '"' then (0, true)
    else if c = '\n' then (0, false)
    else let (n, closed) := stringBody cs; (n + 1, closed)

/-- What follows an opening double quote.  The error of an open string covers its body. -/
def stringTail (cs : List Char) : Shape × Nat :=
  let (n, closed) := stringBody cs
  if closed then (.str, n + 1) else (.stray, n)

/-- What follows an opening single quote: one ASCII character, or a backslash and one. -/
def charTail : List Char → Shape × Nat
  | '\\' :: c :: '\'' :: _ => if c != '\n' && c.val < 0x80 then (.char, 3) else (.stray, 0)
  | c :: '\'' :: _ =>
    if c != '\'' && c != '\\' && c != '\n' && c.val < 0x80 then (.char, 2) else (.stray, 0)
  | _ => (.stray, 0)

/-- The lexemes of one character. -/
def operatorChars : List Char :=
  ['!', '%', '&', '^', '*', '/', '+', '-', '<', '=', '>', '?', '@', '|', ':', ';', '(', ')', '[',
    ']', '\x7b', '\x7d', ',']

/-- The longest operator that begins with `c`. -/
def operatorTail (c : Char) (cs : List Char) : Shape × Nat :=
  match c, cs with
  | '.', '.' :: '.' :: _ => (.operator, 2)
  | '.', '.' :: _ => (.operator, 1)
  | '|', '|' :: _ => (.operator, 1)
  | '&', '&' :: _ => (.operator, 1)
  | '<', '=' :: _ => (.operator, 1)
  | '>', '=' :: _ => (.operator, 1)
  | '=', '=' :: _ => (.operator, 1)
  | '!', '=' :: _ => (.operator, 1)
  | _, _ => if operatorChars.contains c then (.operator, 0) else (.stray, 0)

/-- What begins with `c` before `cs`, and how many characters of `cs` belong to it. -/
def lexeme (c : Char) (cs : List Char) : Shape × Nat :=
  if c = '\n' then (.newline, 0)
  else if isBlank c then (.blank, 0)
  else if c = '#' then (.blank, run (· != '\n') cs)
  else if c.isDigit then numberTail cs
  else if beginsWord c then (.word, run continuesWord cs)
  else if c = '"' then stringTail cs
  else if c = '\'' then charTail cs
  else operatorTail c cs

/-! ## Values -/

/-- The text that a quoted body stands for. -/
def unescape : List Char → List Char
  | [] => []
  | '\\' :: [] => ['\\']
  | '\\' :: c :: cs =>
    (if c = 'n' then '\n' else if c = 't' then '\t' else if c = 'r' then '\r'
      else if c = '0' then '\x00' else c) :: unescape cs
  | c :: cs => c :: unescape cs

/-- What is between the first and the last character. -/
def inner (text : List Char) : List Char := (text.drop 1).dropLast

/-- The token of a lexeme; nothing for a lexeme that is skipped. -/
def token? (settings : Settings) (shape : Shape) (text : List Char) (location : Location) :
    Option (Except Error Token) :=
  let error (problem : Problem) : Option (Except Error Token) :=
    some (.error ⟨problem, String.ofList text, location⟩)
  match shape with
  | .blank => none
  | .newline => if settings.newlines then some (.ok ⟨.newline, location, .none⟩) else none
  | .int =>
    let n := Double.natOfDigits text
    if n ≤ Token.maxInt then some (.ok (.int n location)) else error .invalidNumber
  | .float => match Double.ofText? (String.ofList text) with
    | some x => some (.ok ⟨.num, location, .float x⟩)
    | none => error .invalidNumber
  | .word =>
    let name := String.ofList text
    some (.ok (if settings.keywords.contains name then .keyword name location
      else .ident name location))
  | .str => some (.ok ⟨.str, location, .str (String.ofList (unescape (inner text)))⟩)
  | .char => some (.ok ⟨.char, location, .char ((unescape (inner text)).headD '\x00')⟩)
  | .operator => some (.ok (.keyword (String.ofList text) location))
  | .stray => error .unrecognized

/-! ## Reading a text -/

/-- The tokens and errors of a text that begins at `location`. -/
def tokensFrom (settings : Settings) (location : Location) :
    List Char → List (Except Error Token)
  | [] => []
  | c :: cs =>
    let (shape, n) := lexeme c cs
    let text := c :: cs.take n
    let rest := tokensFrom settings (location.advance text) (cs.drop n)
    match token? settings shape text location with
    | none => rest
    | some t => t :: rest
termination_by cs => cs.length
decreasing_by simp only [List.length_drop, List.length_cons]; omega

/-- The tokens and errors of a text, in order. -/
def tokens (settings : Settings) (source : String) : List (Except Error Token) :=
  tokensFrom settings .start source.toList

/-- The tokens of a text, or the first error in it. -/
def tokenize (source : String) : Except Error (List Token) := (tokens {} source).mapM id

end ShiftReduce.Lexer

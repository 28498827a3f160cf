import ShiftReduce.Grammar.Error
import ShiftReduce.Token.Lexer

/-!
# Grammar/Scanner — lexemes of a grammar text

As in a program text the longest lexeme is taken at each place, and blanks and comments are skipped;
here line feeds are blanks too.  The first character that begins no lexeme ends the reading.
-/

namespace ShiftReduce.Grammar

/-- What begins at a place of a grammar text. -/
inductive Piece where
  | blank
  | lexeme (value : Lexeme)
  | stray (problem : Misreading)

/-- A body that runs to the closing mark on the same line, with the number of its characters and of
the mark. -/
def bodyBefore? (close : Char) (cs : List Char) : Option (List Char × Nat) :=
  let body := cs.takeWhile fun c => c != close && c != '\n'
  match cs.drop body.length with
  | c :: _ => if c = close then some (body, body.length + 1) else none
  | [] => none

/-- What begins with `c` before `cs`, and how many characters of `cs` belong to it. -/
def piece (c : Char) (cs : List Char) : Piece × Nat :=
  if c = '\n' || Lexer.isBlank c then (.blank, 0)
  else if c = '#' then (.blank, Lexer.run (· != '\n') cs)
  else if c = '=' then (.lexeme .equals, 0)
  else if c = '|' then (.lexeme .bar, 0)
  else if c = ';' then (.lexeme .semicolon, 0)
  else if c = '\x7b' then (.lexeme .openBrace, 0)
  else if c = '\x7d' then (.lexeme .closeBrace, 0)
  else if Lexer.beginsWord c then
    let rest := cs.takeWhile Lexer.continuesWord
    (.lexeme (.name (String.ofList (c :: rest))), rest.length)
  else if c.isDigit then
    let rest := cs.takeWhile Char.isDigit
    (.lexeme (.number (String.ofList (c :: rest))), rest.length)
  else if c = '\'' || c = '"' then
    match bodyBefore? c cs with
    | some (body, n) => (.lexeme (.quoted c (String.ofList body)), n)
    | none => (.stray .openLiteral, 0)
  else if c = '[' then
    match bodyBefore? ']' cs with
    | some (body, n) => (.lexeme (.charClass (String.ofList body)), n)
    | none => (.stray .openClass, 0)
  else (.stray (.strayCharacter c), 0)

/-- The lexemes of a text that begins at `location`, and the place of its end. -/
def scanFrom (location : Location) :
    List Char → Except (Located Misreading) (List (Located Lexeme) × Location)
  | [] => .ok ([], location)
  | c :: cs =>
    let (piece, n) := piece c cs
    match piece with
    | .stray problem => .error ⟨problem, location⟩
    | .blank => scanFrom (location.advance (c :: cs.take n)) (cs.drop n)
    | .lexeme value => do
      let (rest, finish) ← scanFrom (location.advance (c :: cs.take n)) (cs.drop n)
      .ok (⟨value, location⟩ :: rest, finish)
termination_by cs => cs.length
decreasing_by all_goals simp only [List.length_drop, List.length_cons]; omega

/-- The lexemes of a text, and the place of its end. -/
def scan (source : String) : Except (Located Misreading) (List (Located Lexeme) × Location) :=
  scanFrom .start source.toList

end ShiftReduce.Grammar

import ShiftReduce.Location

/-!
# Grammar/Lexeme — the words of a grammar text

A grammar text is a sequence of lexemes: five marks, names, numbers, quoted lexemes and character
classes.
-/

namespace ShiftReduce.Grammar

/-- A word of a grammar text. -/
inductive Lexeme where
  | equals
  | bar
  | semicolon
  | openBrace
  | closeBrace
  | name (text : String)
  | number (digits : String)
  /-- A body between two marks, either both single or both double quotes. -/
  | quoted (mark : Char) (body : String)
  /-- A body between square brackets. -/
  | charClass (body : String)
deriving DecidableEq, Repr

/-- A lexeme as a message names it. -/
def Lexeme.describe : Lexeme → String
  | .equals => "`=`"
  | .bar => "`|`"
  | .semicolon => "`;`"
  | .openBrace => "`\x7b`"
  | .closeBrace => "`\x7d`"
  | .name text => "identifier `" ++ text ++ "`"
  | .number digits => "index `" ++ digits ++ "`"
  | .quoted mark body => "`" ++ mark.toString ++ body ++ mark.toString ++ "`"
  | .charClass body => "`[" ++ body ++ "]`"

end ShiftReduce.Grammar

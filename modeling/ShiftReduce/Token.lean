import ShiftReduce.Location
import ShiftReduce.Double

/-!
# Token — what a parser reads

A token is a kind, the place where it begins, and a value.  The kind decides which terminal symbol
the token stands for (`Kind.terminal`): a class of tokens has a name of its own, and a keyword or an
operator is a terminal named by its lexeme.
-/

namespace ShiftReduce

/-! ## Names of terminals -/

namespace Terminal

/-- The terminal at the end of every input. -/
def endOfInput : String := "EOF"

/-- The reserved terminal that stands for the empty string; no token has it. -/
def epsilon : String := "EPSILON"

/-- The classes of tokens, the two reserved terminals first. -/
def classes : List String :=
  [endOfInput, epsilon, "IDENT", "NUM", "STRING", "CHAR", "NEWLINE", "INDENT", "DEDENT"]

/-- The words read as keywords unless a reader is given its own. -/
def reservedWords : List String :=
  ["import", "extern", "type", "if", "else", "then", "in", "for", "while", "unary", "binary",
    "var", "true", "false"]

/-- The lexemes of operators and punctuation. -/
def operators : List String :=
  ["..", "...", "||", "&&", "!", "%", "&", "^", "*", "/", "+", "-", "<", "=", ">", "<=", ">=",
    "==", "!=", "?", "@", "|", ":", ";", "(", ")", "[", "]", "\x7b", "\x7d", ","]

end Terminal

/-! ## Tokens -/

/-- What a token is. -/
inductive Token.Kind where
  | endOfInput
  | ident
  | num
  | str
  | char
  | newline
  | indent
  | dedent
  | keyword (lexeme : String)
deriving DecidableEq, Repr

/-- The name of the terminal that tokens of a kind stand for. -/
def Token.Kind.terminal : Token.Kind → String
  | .endOfInput => Terminal.endOfInput
  | .ident => "IDENT"
  | .num => "NUM"
  | .str => "STRING"
  | .char => "CHAR"
  | .newline => "NEWLINE"
  | .indent => "INDENT"
  | .dedent => "DEDENT"
  | .keyword lexeme => lexeme

/-- What a token carries beside its kind.  Integers are signed words of 64 bits. -/
inductive Token.Value where
  | none
  | int (value : Int)
  | float (value : Double)
  | str (value : String)
  | char (value : Char)
deriving DecidableEq, Repr

/-- A token of the input. -/
structure Token where
  kind : Token.Kind
  location : Location := .start
  value : Token.Value := .none
deriving DecidableEq, Repr

namespace Token

/-- The token that ends every input. -/
def endOfInput (location : Location) : Token := ⟨.endOfInput, location, .none⟩

/-- A keyword or operator. -/
def keyword (lexeme : String) (location : Location) : Token := ⟨.keyword lexeme, location, .none⟩

/-- An identifier. -/
def ident (name : String) (location : Location) : Token := ⟨.ident, location, .str name⟩

/-- An integer. -/
def int (value : Int) (location : Location) : Token := ⟨.num, location, .int value⟩

/-- The largest integer a token can carry. -/
def maxInt : Nat := 0x7fffffffffffffff

end Token
end ShiftReduce

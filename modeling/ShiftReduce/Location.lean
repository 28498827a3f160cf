/-!
# Location — places in a text

A place is a line and a column, both counted from one.  Columns count the UTF-8 bytes of the line
before the place, so `advance` moves by a character's encoded size and starts afresh after a line
feed.  Every reader of text in this library carries its place along with `advance`.
-/

namespace ShiftReduce

/-- A place in a text: a line and a column, counted from one. -/
structure Location where
  line : Nat := 1
  column : Nat := 1
deriving DecidableEq, Repr, Inhabited

namespace Location

/-- The place of the first character. -/
def start : Location := {}

/-- The place after one character. -/
def next (l : Location) (c : Char) : Location :=
  if c = '\n' then ⟨l.line + 1, 1⟩ else ⟨l.line, l.column + c.utf8Size⟩

/-- The place after a run of characters. -/
def advance (l : Location) (text : List Char) : Location := text.foldl next l

/-- `line:column`. -/
def render (l : Location) : String := toString l.line ++ ":" ++ toString l.column

@[simp] theorem advance_nil (l : Location) : l.advance [] = l := rfl

@[simp] theorem advance_cons (l : Location) (c : Char) (cs : List Char) :
    l.advance (c :: cs) = (l.next c).advance cs := rfl

theorem advance_append (l : Location) (s t : List Char) :
    l.advance (s ++ t) = (l.advance s).advance t := List.foldl_append

theorem next_line_feed (l : Location) : l.next '\n' = ⟨l.line + 1, 1⟩ := rfl

end Location

/-- A value read from a text, with the place where it begins. -/
structure Located (α : Type) where
  value : α
  location : Location
deriving DecidableEq, Repr

end ShiftReduce

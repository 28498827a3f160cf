import ShiftReduce.Token
import ShiftReduce.Text.Quoted
import ShiftReduce.Double.Shortest

/-!
# Ast — syntax trees

A node carries the place of the token or of the first child that it was made from.  A shifted token
becomes a leaf (`Ast.leaf`); the other nodes are built by actions.  `Ast.render` is the tree as
text: operations fully parenthesised, blocks one node a line.
-/

namespace ShiftReduce

/-- A constant. -/
inductive Literal where
  | int (value : Int)
  | float (value : Double)
  | str (value : String)
  | char (value : Char)
  | bool (value : Bool)
deriving DecidableEq, Repr

/-- A syntax tree.  `token` is a shifted keyword or operator that no action has consumed. -/
inductive Ast where
  | literal (location : Location) (value : Literal)
  | ident (location : Location) (name : String)
  | token (location : Location) (lexeme : String)
  | unary (location : Location) (op : String) (operand : Ast)
  | binary (location : Location) (op : String) (lhs rhs : Ast)
  | assign (location : Location) (target value : Ast)
  | variable (location : Location) (name : String) (value : Option Ast)
  | conditional (location : Location) (condition consequence : Ast) (alternative : Option Ast)
  | forLoop (location : Location) (name : String) (first last : Ast) (step : Option Ast)
      (body : Ast)
  | whileLoop (location : Location) (condition body : Ast)
  | call (location : Location) (callee : String) (args : List Ast)
  | function (location : Location) (name : String) (params : List String) (body : Ast)
  | record (location : Location) (name : String) (fields : List Ast)
  | block (location : Location) (nodes : List Ast)
deriving Repr

namespace Ast

/-- The place of a node. -/
def location : Ast → Location
  | .literal l _ | .ident l _ | .token l _ | .unary l _ _ | .binary l _ _ _ | .assign l _ _
  | .variable l _ _ | .conditional l _ _ _ | .forLoop l _ _ _ _ _ | .whileLoop l _ _
  | .call l _ _ | .function l _ _ _ | .record l _ _ | .block l _ => l

/-- The leaf that a shifted token becomes.  A numeric or character value makes a literal whatever
the kind; text needs the kind to tell a name from a string. -/
def leaf (t : Token) : Ast :=
  match t.kind, t.value with
  | .ident, .str name => .ident t.location name
  | _, .int n => .literal t.location (.int n)
  | _, .float x => .literal t.location (.float x)
  | _, .char c => .literal t.location (.char c)
  | .str, .str s => .literal t.location (.str s)
  | .keyword lexeme, _ =>
    if lexeme = "true" then .literal t.location (.bool true)
    else if lexeme = "false" then .literal t.location (.bool false)
    else .token t.location lexeme
  | kind, _ => .token t.location kind.terminal

/-- The name of a bare identifier. -/
def ident? : Ast → Option String
  | .ident _ name => some name
  | _ => none

/-- The lexeme of a keyword or operator. -/
def lexeme? : Ast → Option String
  | .token _ lexeme => some lexeme
  | _ => none

end Ast

/-! ## Trees as text -/

/-- Numbers are positional from `10 ^ -4` on and below `10 ^ 16`. -/
def Literal.layout : Double.Layout := ⟨-4, 16⟩

/-- A constant as text. -/
def Literal.render : Literal → String
  | .int n => toString n
  | .float x => x.render layout
  | .str s => Text.quoted s
  | .char c => Text.quotedChar c
  | .bool b => if b then "true" else "false"

mutual

/-- A tree as text. -/
def Ast.render : Ast → String
  | .literal _ value => value.render
  | .ident _ name => name
  | .token _ lexeme => lexeme
  | .unary _ op operand => op ++ operand.render
  | .binary _ op lhs rhs => "(" ++ lhs.render ++ op ++ rhs.render ++ ")"
  | .assign _ target value => target.render ++ " = " ++ value.render
  | .variable _ name none => "var " ++ name
  | .variable _ name (some value) => "var " ++ name ++ " = " ++ value.render
  | .conditional _ condition consequence none =>
    "if " ++ condition.render ++ " then " ++ consequence.render
  | .conditional _ condition consequence (some alternative) =>
    "if " ++ condition.render ++ " then " ++ consequence.render ++ " else " ++ alternative.render
  | .forLoop _ name first last none body =>
    "for " ++ name ++ " in " ++ first.render ++ ".." ++ last.render ++ " " ++ body.render
  | .forLoop _ name first last (some step) body =>
    "for " ++ name ++ " in " ++ first.render ++ ".." ++ step.render ++ ".." ++ last.render ++ " "
      ++ body.render
  | .whileLoop _ condition body => "while " ++ condition.render ++ " " ++ body.render
  | .call _ callee args => callee ++ "(" ++ ", ".intercalate (renderAll args) ++ ")"
  | .function _ name params body =>
    name ++ "(" ++ ", ".intercalate params ++ ") = " ++ body.render
  | .record _ name fields =>
    "type " ++ name ++ " = \x7b" ++ ", ".intercalate (renderAll fields) ++ "\x7d"
  | .block _ nodes => "\n".intercalate (renderAll nodes)

/-- The texts of several trees. -/
def Ast.renderAll : List Ast → List String
  | [] => []
  | node :: nodes => node.render :: renderAll nodes

end

end ShiftReduce

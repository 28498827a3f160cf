import ShiftReduce.Automaton

/-!
# Automaton/TableModule — a flat table as the text of a source module

The module defines the arrays of a flat table as constants, and a table made of them.  Names and
kernels stand as quoted strings, so that no symbol can end its entry early; comments repeat the
rules and number the rows for the reader.
-/

namespace ShiftReduce.Automaton

/-- Where generated modules find the parser, unless told otherwise. -/
def defaultRuntime : String := "::pgen_runtime"

/-- An array constant, an entry a line. -/
def arrayConstant (name type : String) (entries : List String) : String :=
  "pub const " ++ name ++ ": &[" ++ type ++ "] = &[\n" ++ String.join (entries.map (· ++ "\n"))
    ++ "];\n\n"

/-- A quoted string as an entry. -/
def quotedEntry (s : String) : String := "    " ++ Text.quoted s ++ ","

/-- Numbers separated by commas. -/
def numberList (ns : List Nat) : String := ", ".intercalate (ns.map toString)

/-- A rule as an entry. -/
def ruleEntry (symbols : Registry) (r : Rule) : String :=
  let action := match r.action.kind with
    | some kind => "Some(ActionKind::" ++ kind.constant ++ ")"
    | none => "None"
  "    StaticRule \x7b lhs: " ++ toString r.lhs ++ ", rhs: &[" ++ numberList r.rhs
    ++ "], action: " ++ action ++ ", indexes: &[" ++ numberList r.action.indexes
    ++ "] \x7d, // " ++ r.render symbols

/-- The row of a state as an entry of two lines. -/
def rowEntry (q : StateId) (row : Array Cell) : String :=
  let cells := row.toList.map fun cell =>
    let (code, target) := cell.parts
    " (A::" ++ code.name ++ ", " ++ toString target ++ "),"
  "    // " ++ StateId.tag q ++ "\n   " ++ String.join cells

/-- The module of an automaton, with the path at which it finds the parser. -/
def tableModule (a : Automaton) (runtime : String) : String :=
  "// @generated by pgen. Do not edit.\n\n"
    ++ "#[allow(unused_imports)]\n"
    ++ "use " ++ runtime ++ "::action::ActionKind;\n"
    ++ "use " ++ runtime
    ++ "::definition::\x7bActionCode as A, StaticRule, StaticTable\x7d;\n\n"
    ++ arrayConstant "SYMBOLS" "&str" (a.symbols.toList.map quotedEntry)
    ++ "pub const TERMINAL_COUNT: u16 = " ++ toString a.symbols.terminalCount ++ ";\n\n"
    ++ arrayConstant "RULES" "StaticRule" (a.rules.toList.map (ruleEntry a.symbols))
    ++ arrayConstant "TABLE" "(A, u16)"
      (a.cells.rows.toList.zipIdx.map fun (row, q) => rowEntry q row)
    ++ arrayConstant "KERNELS" "&str" (a.kernels.map quotedEntry)
    ++ "pub static PARSE_TABLE: StaticTable = StaticTable \x7b\n"
    ++ "    symbols: SYMBOLS,\n    terminal_count: TERMINAL_COUNT,\n    rules: RULES,\n"
    ++ "    table: TABLE,\n    kernels: KERNELS,\n\x7d;\n"

end ShiftReduce.Automaton

import ShiftReduce.Automaton.Dump
import ShiftReduce.Automaton.TableModule

/-!
# Command — the command line

A command compiles a grammar file, reports its conflicts, and on request dumps the automaton, writes
the table module and parses a text.  `Command.run` is written over any means of reaching files, so
it can be followed without a disk; it answers with what goes to the two output streams.
-/

namespace ShiftReduce.Command

/-- What the command line asks for. -/
structure Options where
  input : String
  dump : Bool := false
  emit : Option String := none
  parse : Option String := none
  config : Config := {}

/-! ## Arguments -/

/-- Why a command line cannot be understood. -/
inductive UsageError where
  | unknownFlag (flag : String)
  | missingValue (flag : String)
  | unexpectedValue (flag : String)
  | repeatedFlag (flag : String)
  | notANumber (flag value : String)
  | extraArgument (argument : String)
  | missingInput
deriving DecidableEq, Repr

/-- The wording of an error. -/
def UsageError.message : UsageError → String
  | .unknownFlag flag => "unexpected argument '" ++ flag ++ "' found"
  | .missingValue flag => "a value is required for '" ++ flag ++ "' but none was supplied"
  | .unexpectedValue flag => "unexpected value for '" ++ flag ++ "' found; no more were expected"
  | .repeatedFlag flag => "the argument '" ++ flag ++ "' cannot be used multiple times"
  | .notANumber flag value => "invalid value '" ++ value ++ "' for '" ++ flag ++ "'"
  | .extraArgument argument => "unexpected argument '" ++ argument ++ "' found"
  | .missingInput => "the following required arguments were not provided:\n  <INPUT>"

/-- A flag and its value, as far as the command line is split up. -/
inductive Argument where
  | input (path : String)
  | switch (name : String)
  | setting (name value : String)
deriving DecidableEq, Repr

/-- The flags without a value. -/
def switches : List String := ["--dump", "--slr"]

/-- The flags with a value. -/
def settings : List String :=
  ["--emit", "--parse", "--max-states", "--max-rules", "--max-symbols", "--max-augmented-rules",
    "--max-rhs-len"]

/-- A flag and the value written behind an equals sign in one argument. -/
def splitFlag (s : String) : String × Option String :=
  let name := s.toList.takeWhile (· != '=')
  match s.toList.drop name.length with
  | [] => (s, none)
  | _ :: value => (String.ofList name, some (String.ofList value))

/-- Splits a command line up.  A flag takes the next argument as its value unless that looks like a
flag; behind `--` nothing is a flag. -/
def split : List String → Except UsageError (List Argument)
  | [] => .ok []
  | "--" :: rest => .ok (rest.map .input)
  | arg :: rest =>
    if arg.startsWith "-" && arg != "-" then
      let (flag, value) := splitFlag arg
      if switches.contains flag then
        if value.isSome then .error (.unexpectedValue flag)
        else (split rest).map (.switch flag :: ·)
      else if settings.contains flag then
        match value, rest with
        | some value, rest => (split rest).map (.setting flag value :: ·)
        | none, value :: rest =>
          if value.startsWith "-" && value != "-" then .error (.missingValue flag)
          else (split rest).map (.setting flag value :: ·)
        | none, [] => .error (.missingValue flag)
      else .error (.unknownFlag flag)
    else (split rest).map (.input arg :: ·)

/-- The largest number of a word of 64 bits. -/
def wordMax : Nat := 0xffffffffffffffff

/-- A number of one word; a plus sign may stand before it. -/
def number? (s : String) : Option Nat :=
  let digits := match s.toList with
    | '+' :: rest => rest
    | all => all
  if digits.isEmpty || !digits.all Char.isDigit then none
  else
    let n := Double.natOfDigits digits
    if n ≤ wordMax then some n else none

/-- The limits with one of them set. -/
def setLimit (l : Limits) (flag : String) (n : Nat) : Limits :=
  match flag with
  | "--max-states" => { l with states := n }
  | "--max-rules" => { l with rules := n }
  | "--max-symbols" => { l with symbols := n }
  | "--max-augmented-rules" => { l with labelledRules := n }
  | "--max-rhs-len" => { l with rightHandSide := n }
  | _ => l

/-- The options with one argument more. -/
def Options.set (o : Options) : Argument → Except UsageError Options
  | .input path => .error (.extraArgument path)
  | .switch "--dump" => .ok { o with dump := true }
  | .switch _ => .ok { o with config := { o.config with mode := .slr } }
  | .setting "--emit" "" => .error (.missingValue "--emit")
  | .setting "--emit" value => .ok { o with emit := some value }
  | .setting "--parse" value => .ok { o with parse := some value }
  | .setting flag value =>
    match number? value with
    | none => .error (.notANumber flag value)
    | some n =>
      .ok { o with config := { o.config with limits := setLimit o.config.limits flag n } }

/-- The first flag that is given twice. -/
def repeated? : List Argument → Option String
  | [] => none
  | .input _ :: rest => repeated? rest
  | .switch flag :: rest =>
    if rest.contains (.switch flag) then some flag else repeated? rest
  | .setting flag _ :: rest =>
    if rest.any fun | .setting other _ => other == flag | _ => false then some flag
    else repeated? rest

/-- The options of a command line. -/
def Options.ofArguments (args : List String) : Except UsageError Options := do
  let args ← split args
  match repeated? args with
  | some flag => .error (.repeatedFlag flag)
  | none =>
    let isInput : Argument → Bool := fun | .input _ => true | _ => false
    match args.find? isInput with
    | some (.input "") => .error (.missingValue "<INPUT>")
    | some (.input path) =>
      (args.eraseP isInput).foldlM Options.set ({ input := path } : Options)
    | _ => .error .missingInput

/-! ## Files -/

/-- Why a file cannot be reached. -/
inductive FileError where
  | notFound
  | permissionDenied
  | notDirectory
  | isDirectory
  | nameTooLong
  | notRegular
  | other (words : String)
deriving DecidableEq, Repr

/-- The wording of an error. -/
def FileError.message : FileError → String
  | .notFound => "No such file or directory (os error 2)"
  | .permissionDenied => "Permission denied (os error 13)"
  | .notDirectory => "Not a directory (os error 20)"
  | .isDirectory => "Is a directory (os error 21)"
  | .nameTooLong => "File name too long (os error 36)"
  | .notRegular => "the source path is neither a regular file nor a symlink to a regular file"
  | .other words => words

/-- The means of reaching files. -/
structure Files (m : Type → Type) where
  read : String → m (Except FileError String)
  isPresent : String → m Bool
  copy : String → String → m (Except FileError Unit)
  write : String → String → m (Except FileError Unit)

/-- A path with the ending of its last name replaced, and with nothing behind that name.  A name
that begins with its only full stop has no ending, and a path that ends in no name stays as it
is. -/
def withEnding (path ending : String) : String :=
  match (path.splitOn "/").reverse.dropWhile fun name => name = "" || name = "." with
  | [] | ".." :: _ => path
  | name :: above =>
    let stem := ".".intercalate (name.splitOn ".").dropLast
    let stem := if stem = "" then name else stem
    "/".intercalate (above.reverse ++ [stem ++ "." ++ ending])

/-! ## Failures -/

/-- A failure: what was being done, and the causes, the nearest one first. -/
structure Failure where
  context : String
  causes : List String

/-- A failure as text; several causes are numbered. -/
def Failure.render (f : Failure) : String :=
  let causes := match f.causes with
    | [cause] => ["    " ++ cause]
    | causes => causes.mapIdx fun n cause => "    " ++ toString n ++ ": " ++ cause
  "Error: " ++ f.context ++ "\n\nCaused by:\n" ++ String.join (causes.map (· ++ "\n"))

/-- The causes of a grammar's rejection. -/
def grammarCauses (e : Grammar.Error) : List String :=
  match e with
  | .registry inner => [e.message, inner.message]
  | _ => [e.message]

/-- The causes of an input's rejection. -/
def parseCauses (e : Parser.Error Lexer.Error) : List String :=
  let message := e.message Lexer.Error.message
  match e with
  | .action inner => [message, inner.message]
  | _ => [message]

/-! ## Running a command -/

/-- What a command does: it prints, and may fail. -/
abbrev Run (m : Type → Type) := ExceptT Failure (StateT String m)

section

variable {m : Type → Type} [Monad m]

/-- Adds to the standard output. -/
def print (s : String) : Run m Unit := modify (· ++ s)

/-- The value of an attempt, which fails in the context told. -/
def attempt {α : Type} (context : String) (action : m (Except FileError α)) : Run m α := do
  match ← (action : StateT String m (Except FileError α)) with
  | .ok a => return a
  | .error e => throw ⟨context, [e.message]⟩

/-- Warns of the conflicts of an automaton. -/
def reportConflicts (a : Automaton) : Run m Unit :=
  if a.conflicts.isEmpty then pure ()
  else do
    print ("[warning] The automaton has "
      ++ toString (Conflict.count .shiftReduce a.conflicts) ++ " shift/reduce and "
      ++ toString (Conflict.count .reduceReduce a.conflicts) ++ " reduce/reduce conflicts:\n")
    a.conflicts.forM fun c => print ("[warning]   " ++ c.render a.rules a.symbols ++ "\n")

/-- Writes the table module to a path, keeping a copy of what was there. -/
def emit (files : Files m) (a : Automaton) (path : String) : Run m Unit := do
  if ← (files.isPresent path : StateT String m Bool) then
    let backup := withEnding path "rs.bak"
    attempt ("failed to backup the output file to " ++ backup) (files.copy path backup)
  attempt ("failed to write the parse table to " ++ path)
    (files.write path (a.tableModule Automaton.defaultRuntime))

/-- Parses a text and prints its tree. -/
def parseAndPrint (a : Automaton) (fuel : Nat) (text : String) : Run m Unit :=
  let context := "failed to parse the input text"
  match a.parseText fuel text with
  | some (.ok node) => print (node.render ++ "\n")
  | some (.error e) => throw ⟨context, parseCauses e⟩
  | none => throw ⟨context, ["the parser did not finish"]⟩

/-- Carries a command out; a parse ends after at most `fuel` steps. -/
def execute (files : Files m) (fuel : Nat) (o : Options) : Run m Unit := do
  let source ← attempt ("failed to read " ++ o.input) (files.read o.input)
  match Automaton.generate o.config .standard source with
  | .error e => throw ⟨"failed to compile " ++ o.input, grammarCauses e⟩
  | .ok a =>
    reportConflicts a
    if o.dump then print a.dump
    o.emit.forM (emit files a)
    o.parse.forM (parseAndPrint a fuel)

end

/-- What a command leaves: its exit code and what it wrote to the output streams. -/
structure Report where
  code : Nat
  stdout : String
  stderr : String
deriving DecidableEq, Repr

/-- Runs a command line. -/
def run {m : Type → Type} [Monad m] (files : Files m) (fuel : Nat) (args : List String) :
    m Report := do
  match Options.ofArguments args with
  | .error e => return ⟨2, "", "error: " ++ e.message ++ "\n"⟩
  | .ok o =>
    match ← (execute files fuel o).run.run "" with
    | (.ok (), stdout) => return ⟨0, stdout, ""⟩
    | (.error failure, stdout) => return ⟨1, stdout, failure.render⟩

end ShiftReduce.Command

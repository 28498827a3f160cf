import ShiftReduce.Command

/-!
# Command/Disk — files in memory

A disk is a tree of names, and a path is followed through it name by name: every name but the last
has to lead to a directory.  `Disk.files` are the means by which a command reaches such files, so
that `Command.run` over a disk is a function.
-/

namespace ShiftReduce.Command

/-- What stands at a place.  A sink is empty when it is read, and takes what is written to it. -/
inductive Disk.Node where
  | file (text : String)
  | directory
  | sink
deriving DecidableEq, Repr

/-- The names that lead to a place from the root, the last one first. -/
abbrev Disk.Place := List String

/-- What stands at the places of a tree, and the place at which relative paths begin. -/
structure Disk where
  nodes : List (Disk.Place × Disk.Node)
  working : Disk.Place

namespace Disk

/-- What stands at a place; the root is a directory. -/
def node? (d : Disk) (place : Place) : Option Node :=
  if place = [] then some .directory else d.nodes.lookup place

/-- Puts something at a place, instead of what stands there. -/
def put (d : Disk) (place : Place) (node : Node) : Disk :=
  { d with nodes := (place, node) :: d.nodes.filter (·.1 ≠ place) }

/-- The text of the file of a name in the working directory. -/
def text? (d : Disk) (name : String) : Option String :=
  match d.node? (name :: d.working) with
  | some (.file text) => some text
  | _ => none

/-! ## Following a path -/

/-- The most bytes that a name may have. -/
def maxName : Nat := 255

/-- The most bytes that a path may have. -/
def maxPath : Nat := 4095

/-- Whether a name stands for a directory that is already known. -/
def isDots (name : String) : Bool := name = "." || name = ".."

/-- The place that a name leads to.  No name, as between two slashes, is the directory itself. -/
def enter (d : Disk) (place : Place) (name : String) : Except FileError Place :=
  match d.node? place with
  | none => .error .notFound
  | some .directory =>
    if name = "" || name = "." then .ok place
    else if name = ".." then .ok place.tail
    else if maxName < name.utf8ByteSize then .error .nameTooLong
    else .ok (name :: place)
  | some _ => .error .notDirectory

/-- The names of a path, and the place at which they begin. -/
def namesOf (d : Disk) (path : String) : Except FileError (Place × List String) :=
  if path = "" then .error .notFound
  else if maxPath < path.utf8ByteSize then .error .nameTooLong
  else match path.splitOn "/" with
    | "" :: names => .ok ([], names)
    | names => .ok (d.working, names)

/-- What stands at the end of a path; a path that ends in a slash leads to a directory. -/
def find (d : Disk) (path : String) : Except FileError Node := do
  let (start, names) ← d.namesOf path
  let place ← names.foldlM d.enter start
  match d.node? place with
  | some node => .ok node
  | none => .error .notFound

/-- The place at which a file of a path is made.  A slash behind its name asks for a directory,
which writing does not make. -/
def placeFor (d : Disk) (path : String) : Except FileError Place := do
  let (start, names) ← d.namesOf path
  match names.reverse.dropWhile (· = "") with
  | [] => .ok start
  | name :: above =>
    let parent ← above.reverse.foldlM d.enter start
    let parent ← d.enter parent "."
    if names.getLast? = some "" && !isDots name then .error .isDirectory
    else d.enter parent name

/-! ## Reading and writing -/

/-- The text that a path leads to. -/
def read (d : Disk) (path : String) : Except FileError String := do
  match ← d.find path with
  | .file text => .ok text
  | .directory => .error .isDirectory
  | .sink => .ok ""

/-- The disk with a text written to a path. -/
def write (d : Disk) (path text : String) : Except FileError Disk := do
  let place ← d.placeFor path
  match d.node? place with
  | some .directory => .error .isDirectory
  | some .sink => .ok d
  | _ => .ok (d.put place (.file text))

/-- The disk with a copy of a file. -/
def copy (d : Disk) (source target : String) : Except FileError Disk := do
  match ← d.find source with
  | .file text => d.write target text
  | _ => .error .notRegular

/-- Changes the disk, unless that fails. -/
def change (f : Disk → Except FileError Disk) : StateM Disk (Except FileError Unit) := fun d =>
  match f d with
  | .ok d => (.ok (), d)
  | .error e => (.error e, d)

/-- The means of reaching the files of a disk. -/
def files : Files (StateM Disk) where
  read path := do return (← get).read path
  isPresent path := do return ((← get).find path).isOk
  copy source target := change (·.copy source target)
  write path text := change (·.write path text)

end Disk
end ShiftReduce.Command

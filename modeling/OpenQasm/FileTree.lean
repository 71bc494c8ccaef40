import OpenQasm.Table
import OpenQasm.Text.Blank
import OpenQasm.Text.Units

/-!
# Trees of files

A tree of directories and text files under one working directory. Paths are walked one component
at a time: an empty component or a dot stays, a double dot goes up, and a name has to be a
directory unless it comes last. `joinPath` is the textual side: it joins two paths and removes
what can be removed without looking at the tree.
-/
namespace OpenQasm

/-- Why the tree refuses an access. -/
inductive FileError where
  | notFound
  | isDirectory
  | notDirectory
  | alreadyExists
  deriving DecidableEq, Repr

inductive FileEntry where
  | directory
  | file (text : String)
  deriving DecidableEq, Repr

/-- The entries below the working directory, each with the names that lead to it. -/
structure FileTree where
  entries : Table (List String) FileEntry
  deriving DecidableEq, Repr

def pathComponents (path : String) : List String :=
  (Text.splitWhere (· == '/') path.toList).map String.ofList

/-- Take one more component onto a path that is kept without superfluous ones, last first. A
double dot removes the component before it, unless that goes up as well. -/
def pushComponent (stack : List String) (component : String) : List String :=
  if component == "" || component == "." then stack
  else if component == ".." then
    match stack with
    | [] => [".."]
    | top :: rest => if top == ".." then ".." :: stack else rest
  else component :: stack

/-- The path of a file in a folder, without superfluous components. -/
def joinPath (folder file : String) : String :=
  match (pathComponents folder ++ pathComponents file).foldl pushComponent [] with
  | [] => "."
  | stack => Text.join "/" stack.reverse

namespace FileTree

def empty : FileTree :=
  ⟨.empty⟩

/-- Go from a directory along one component that is not the last. -/
def enter (t : FileTree) (directory : List String) (component : String) :
    Except FileError (List String) :=
  if component == "" || component == "." then .ok directory
  else if component == ".." then .ok directory.dropLast
  else
    match t.entries.get? (directory ++ [component]) with
    | some .directory => .ok (directory ++ [component])
    | some (.file _) => .error .notDirectory
    | none => .error .notFound

/-- Where a path leads, and the entry there if there is one. The place may be free, but the
directory that it is in has to exist. -/
def find (t : FileTree) (path : String) : Except FileError (List String × Option FileEntry) := do
  if path.isEmpty then .error .notFound
  else
    let components := pathComponents path
    let directory ← components.dropLast.foldlM t.enter []
    let last := components.getLastD ""
    if last == "" || last == "." || last == ".." then
      return (← t.enter directory last, some .directory)
    else return (directory ++ [last], t.entries.get? (directory ++ [last]))

/-- The text of a file. -/
def read (t : FileTree) (path : String) : Except FileError String := do
  match ← t.find path with
  | (_, some (.file text)) => return text
  | (_, some .directory) => .error .isDirectory
  | (_, none) => .error .notFound

/-- Write a file. An entry that is there already is replaced only if `overwrite` is set and it is
a file. -/
def write (t : FileTree) (path text : String) (overwrite : Bool) : Except FileError FileTree := do
  match ← t.find path with
  | (place, none) => return ⟨t.entries.insert place (.file text)⟩
  | (place, some entry) =>
      if !overwrite then .error .alreadyExists
      else
        match entry with
        | .file _ => return ⟨t.entries.insert place (.file text)⟩
        | .directory => .error .isDirectory

/-- Make the missing directories along components. What is made before a failure stays. -/
def makeAlong (t : FileTree) (directory : List String) :
    List String → FileTree × Option FileError
  | [] => (t, none)
  | component :: rest =>
      match t.enter directory component with
      | .ok next => t.makeAlong next rest
      | .error .notFound =>
          let next := directory ++ [component]
          makeAlong ⟨t.entries.insert next .directory⟩ next rest
      | .error e => (t, some (if rest.isEmpty then .alreadyExists else e))

/-- Make a directory and those above it, as far as they are missing. -/
def makeDirectory (t : FileTree) (path : String) : FileTree × Option FileError :=
  if path.isEmpty then (t, some .notFound) else t.makeAlong [] (pathComponents path)

/-- Whether one text comes before another, or is equal to it, in the order of 16-bit units. -/
def precedes (a b : String) : Bool :=
  let x := (Text.units a.toList).map UInt16.toNat
  let y := (Text.units b.toList).map UInt16.toNat
  !y.lex x (fun m n => decide (m < n))

/-- The paths of all entries in the order of their texts. -/
def paths (t : FileTree) : List String :=
  (t.entries.keys.map (Text.join "/")).mergeSort precedes

end FileTree

end OpenQasm

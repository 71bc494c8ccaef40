import OpenQasm.Backend
import OpenQasm.FileTree
import OpenQasm.Source.Reader

/-!
# Programs in files

A program is written to a file of its own in a folder, which is made if need be, and a circuit is
read from a file. The program is compiled before anything is written, so a circuit that has no
program leaves the files as they are.
-/
namespace OpenQasm.Storage

inductive Error where
  | backend (e : Backend.Error)
  | source (e : Source.Error)
  | fileExists (path : String)
  | file (e : FileError)
  deriving DecidableEq, Repr

def existsMessage (path : String) : String :=
  "File " ++ path ++ " already exists, aborting. Use overwrite to replace it"

/-- The ending of program files. -/
def ending : String :=
  ".qasm"

/-- Put a text under a path in a folder, and answer the path. -/
def put (t : FileTree) (folder path text : String) (overwrite : Bool) :
    Except Error String × FileTree :=
  match t.makeDirectory folder with
  | (t, some e) => (.error (.file e), t)
  | (t, none) =>
      match t.write path text overwrite with
      | .ok t => (.ok path, t)
      | .error .alreadyExists => (.error (.fileExists path), t)
      | .error e => (.error (.file e), t)

/-- Compile a circuit and write its program to a file of the given name in a folder. -/
def save (b : Backend) (t : FileTree) (ops : List Operation) (folder name : String)
    (overwrite symbolic : Bool) : Except Error String × Backend × FileTree :=
  match b.run ops symbolic with
  | (.error e, b) => (.error (.backend e), b, t)
  | (.ok output, b) =>
      let (result, t) := put t folder (joinPath folder (name ++ ending)) output.text overwrite
      (result, b, t)

/-- Read the circuit of a program file. -/
def load (t : FileTree) (path : String) : Except Error Circuit := do
  let text ← (t.read path).mapError .file
  let result ← (Source.read text).mapError .source
  return result.circuit

end OpenQasm.Storage

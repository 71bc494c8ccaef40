import OpenQasm.Metadata
import OpenQasm.Program

/-!
# The program backend

A backend turns circuits into complete programs under fixed options. Variables take their values
from the inputs of the circuit, and substitutions given to the backend override these. In symbolic
mode the backend keeps the placeholders of its last program.
-/
namespace OpenQasm

namespace Backend

/-- Options of a backend: the qubit register and its size, names of qubits, values of variables. -/
structure Options where
  register : String
  size : Option Float
  names : Option QubitNames
  substitutions : List (String × Float)

/-- What a backend is called. -/
def name : String :=
  "qasm"

def Options.default : Options :=
  ⟨defaultRegister, none, none, []⟩

inductive Error where
  | classified (e : Classified.Error)
  | line (e : Line.Error)
  deriving DecidableEq, Repr

def Error.message : Error → String
  | classified e => e.message
  | line e => e.message

/-- A program, the size of its qubit register, and what it was composed of. -/
structure Output where
  text : String
  size : Float
  body : Body
  deriving DecidableEq, Repr

/-- The calculator for a circuit: its inputs, overridden by the substitutions. -/
def calculator (o : Options) (m : Metadata) : Calculator :=
  (Calculator.mk m.inputs).setAll o.substitutions

/-- The size of the qubit register: as chosen, else just enough for the circuit and at least one. -/
def size (o : Options) (c : Circuit) : Float :=
  o.size.getD (Number.larger 1 c.qubitCount)

/-- The program of a list of operations. -/
def compile (o : Options) (ops : List Operation) (symbolic : Bool) : Except Error Output := do
  let classified ← (Classified.ofOperations none ops false).mapError .classified
  let options : Line.Options :=
    ⟨⟨o.register, o.names⟩, some (calculator o classified.metadata).evaluate, fun _ => false⟩
  let cache := if symbolic then some Placeholder.Cache.empty else none
  let body ← (Body.ofOperations options cache classified.circuit.operations).mapError .line
  let size := size o classified.circuit
  return ⟨Program.compose o.register size (body.declarations.map Line.terminated)
    (body.lines.map Line.terminated), size, body⟩

/-- The lines of a program text. -/
def textLines (text : String) : List String :=
  (Text.splitWhere (· == '\n') (Text.trimEnd text.toList)).map String.ofList

end Backend

/-- A backend with the placeholders of its last symbolic program. -/
structure Backend where
  options : Backend.Options
  cache : Option Placeholder.Cache

namespace Backend

def new (o : Options) : Backend :=
  ⟨o, none⟩

/-- Compile, and keep the placeholders if there are new ones. -/
def run (b : Backend) (ops : List Operation) (symbolic : Bool) :
    Except Error Output × Backend :=
  match compile b.options ops symbolic with
  | .ok output => (.ok output, { b with cache := output.body.cache <|> b.cache })
  | .error e => (.error e, b)

end Backend

end OpenQasm

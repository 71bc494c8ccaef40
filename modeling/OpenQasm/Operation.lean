import OpenQasm.Complex
import OpenQasm.Gate

/-!
# Operations of a circuit

An operation is a gate of the table, a general one-qubit gate, a measurement, the definition of a
classical register, a request or setting for the simulator, an input value for a symbolic
variable, or an operation that only its name is known of. Each has a type name and tags, the most
general first, and the list of qubits it acts on.
-/
namespace OpenQasm

inductive RegisterKind where
  | bit | float | complex | usize
  deriving DecidableEq, Repr

/-- A general gate on one qubit, by the first column of its matrix and a phase. -/
structure ColumnGate where
  qubit : Float
  alphaReal : Parameter
  alphaImag : Parameter
  betaReal : Parameter
  betaImag : Parameter
  globalPhase : Parameter
  deriving DecidableEq, Repr

/-- The measurement of one qubit into one bit of a register. -/
structure Measurement where
  qubit : Float
  readout : String
  index : Float
  deriving DecidableEq, Repr

/-- Which bit each qubit is measured into; the keys spell the qubits. -/
abbrev QubitMapping := Table String Float

/-- A mapping with its entries in the order of a record. -/
def QubitMapping.ofList (entries : List (String × Float)) : QubitMapping :=
  (Table.ofList entries).indexFirst

def QubitMapping.qubits (m : QubitMapping) : List Float :=
  m.keys.map (fun key => Number.read key.toList)

/-- The measurement of all qubits, or of the mapped ones, repeated a number of times. -/
structure RepeatedMeasurement where
  readout : String
  count : Float
  mapping : Option QubitMapping
  deriving DecidableEq, Repr

/-- A classical register. -/
structure Declaration where
  kind : RegisterKind
  name : String
  length : Float
  isOutput : Bool
  deriving DecidableEq, Repr

/-- How often the single measurements into a register are to be repeated. -/
structure ShotSetting where
  readout : String
  count : Float
  deriving DecidableEq, Repr

inductive Operation where
  | gate (g : Gate)
  | column (g : ColumnGate)
  | measure (m : Measurement)
  | measureRepeatedly (m : RepeatedMeasurement)
  | define (d : Declaration)
  | setShots (s : ShotSetting)
  | getStateVector (readout : String)
  | getDensityMatrix (readout : String)
  | setStateVector (amplitudes : List Complex)
  | input (name : String) (value : Float)
  | foreign (name : String) (qubits : List Float)
  deriving DecidableEq, Repr

namespace Operation

def definitionType : RegisterKind → String
  | .bit => "DefinitionBit"
  | .float => "DefinitionFloat"
  | .complex => "DefinitionComplex"
  | .usize => "DefinitionUsize"

def typeName : Operation → String
  | gate g => g.kind.name
  | column _ => "SingleQubitGate"
  | measure _ => "MeasureQubit"
  | measureRepeatedly _ => "PragmaRepeatedMeasurement"
  | define d => definitionType d.kind
  | setShots _ => "PragmaSetNumberOfMeasurements"
  | getStateVector _ => "PragmaGetStateVector"
  | getDensityMatrix _ => "PragmaGetDensityMatrix"
  | setStateVector _ => "PragmaSetStateVector"
  | input _ _ => "InputSymbolic"
  | foreign _ _ => "Opaque"

/-- What an operation is an instance of, from the most general tag to its own type. -/
def tags (op : Operation) : List String :=
  "Operation" ::
    match op with
    | gate (.rotation _ _ _) =>
        ["GateOperation", "SingleQubitGateOperation", "Rotation", op.typeName]
    | gate (.fixed _ _) => ["GateOperation", "SingleQubitGateOperation", op.typeName]
    | gate (.pair _ _ _) => ["GateOperation", "TwoQubitGateOperation", op.typeName]
    | column _ => ["GateOperation", "SingleQubitGateOperation", op.typeName]
    | measure _ => ["Measurement", op.typeName]
    | measureRepeatedly _ => ["PragmaOperation", "Measurement", op.typeName]
    | define _ => ["Definition", op.typeName]
    | setShots _ => ["PragmaOperation", "Measurement", op.typeName]
    | getStateVector _ => ["PragmaOperation", "Measurement", op.typeName]
    | getDensityMatrix _ => ["PragmaOperation", "Measurement", op.typeName]
    | setStateVector _ => ["PragmaOperation", op.typeName]
    | input _ _ => ["Definition", op.typeName]
    | foreign _ _ => []

def hasTag (op : Operation) (tag : String) : Bool :=
  op.tags.contains tag

/-- The register that an operation defines. An input carries the tag of a definition and defines
none. -/
def definition? : Operation → Option Declaration
  | define d => some d
  | _ => none

def isDefinition (op : Operation) : Bool :=
  op.definition?.isSome

/-- The qubits an operation acts on; none for one that acts on a whole register. -/
def qubits : Operation → List Float
  | gate g => g.qubits
  | column g => [g.qubit]
  | measure m => [m.qubit]
  | measureRepeatedly m =>
      match m.mapping with
      | some mapping => mapping.qubits
      | none => []
  | foreign _ qubits => qubits
  | _ => []

end Operation

end OpenQasm

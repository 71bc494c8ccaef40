import OpenQasm.Circuit

/-!
# Classification of a circuit

One pass over a circuit separates what becomes lines of a program from what only concerns the
simulator: measurements, settings of shots, requests for the state, inputs of variables, and the
initial state. Afterwards the combination is checked: the two kinds of measurement exclude each
other, as do the two requests, and where output is required there has to be one of them.
-/
namespace OpenQasm

/-- What a circuit says to the simulator. -/
structure Metadata where
  repeated : List RepeatedMeasurement
  single : List Measurement
  settings : List ShotSetting
  wantsStateVector : Bool
  wantsDensityMatrix : Bool
  stateVectorReadout : Option String
  densityMatrixReadout : Option String
  inputs : Table String Float
  deriving DecidableEq, Repr

namespace Metadata

def empty : Metadata where
  repeated := []
  single := []
  settings := []
  wantsStateVector := false
  wantsDensityMatrix := false
  stateVectorReadout := none
  densityMatrixReadout := none
  inputs := .empty

/-- Why a circuit cannot be run as it stands. -/
inductive Conflict where
  | mixedMeasurements
  | stateRequests
  | noOutput
  deriving DecidableEq, Repr

def Conflict.reason : Conflict → String
  | mixedMeasurements => "mixed-measurements"
  | stateRequests => "conflicting-state-pragmas"
  | noOutput => "no-output"

def Conflict.message : Conflict → String
  | mixedMeasurements =>
      "Only one type of measurement operation allowed: PragmaRepeatedMeasurement or MeasureQubit"
  | stateRequests => "PragmaGetStateVector and PragmaGetDensityMatrix cannot be used together"
  | noOutput => "The circuit does not contain measurement operations or state requests"

/-- Whether anything is measured. -/
def isMeasured (m : Metadata) : Bool :=
  !m.repeated.isEmpty || !m.single.isEmpty

def validate (m : Metadata) (requireOutput : Bool) : Except Conflict Unit :=
  if !m.repeated.isEmpty && !m.single.isEmpty then .error .mixedMeasurements
  else if m.wantsStateVector && m.wantsDensityMatrix then .error .stateRequests
  else if requireOutput && !m.isMeasured && !m.wantsStateVector && !m.wantsDensityMatrix then
    .error .noOutput
  else .ok ()

/-- The greatest of some counts, or one if there is none. -/
def greatest : List Float → Float
  | [] => 1
  | x :: xs => Number.maximum x xs

/-- How often a circuit has to be run: once for a state; else as often as the repeated
measurements ask for; else as often as the settings do. -/
def shots (m : Metadata) : Float :=
  if m.wantsStateVector || m.wantsDensityMatrix then 1
  else if m.repeated.isEmpty then greatest (m.settings.map (·.count))
  else greatest (m.repeated.map (·.count))

/-- The one name under which no input value is kept. -/
def reservedName : String :=
  "__proto__"

/-- What an operation adds. -/
def record (m : Metadata) : Operation → Metadata
  | .measureRepeatedly r => { m with repeated := m.repeated ++ [r] }
  | .measure s => { m with single := m.single ++ [s] }
  | .setShots s => { m with settings := m.settings ++ [s] }
  | .getStateVector readout =>
      { m with wantsStateVector := true, stateVectorReadout := some readout }
  | .getDensityMatrix readout =>
      { m with wantsDensityMatrix := true, densityMatrixReadout := some readout }
  | .input name value =>
      if name == reservedName then m else { m with inputs := m.inputs.insert name value }
  | _ => m

end Metadata

/-- A circuit of the operations to be written, and what was said to the simulator. -/
structure Classified where
  circuit : Circuit
  metadata : Metadata
  initialState : Option (List Complex)
  deriving DecidableEq, Repr

namespace Classified

inductive Error where
  | circuit (e : Circuit.Error)
  | conflict (c : Metadata.Conflict)
  deriving DecidableEq, Repr

def Error.message : Error → String
  | circuit e => e.message
  | conflict c => c.message

/-- Whether an operation is written, and not only said to the simulator. -/
def isWritten : Operation → Bool
  | .setStateVector _ => false
  | .setShots _ => false
  | .getStateVector _ => false
  | .getDensityMatrix _ => false
  | _ => true

/-- Take in one operation. -/
def step (c : Classified) (op : Operation) : Except Circuit.Error Classified := do
  let circuit ← if isWritten op then c.circuit.add op else .ok c.circuit
  let initialState := match op with
    | .setStateVector amplitudes => some amplitudes
    | _ => c.initialState
  return ⟨circuit, c.metadata.record op, initialState⟩

/-- Take in operations in order. -/
def run (c : Classified) : List Operation → Except Circuit.Error Classified
  | [] => .ok c
  | op :: ops => do (← c.step op).run ops

/-- Classify operations under a circuit name. An invalid qubit is reported before any conflict. -/
def ofOperations (name : Option String) (ops : List Operation) (requireOutput : Bool) :
    Except Error Classified := do
  let c ← (run ⟨.empty name, .empty, none⟩ ops).mapError .circuit
  (c.metadata.validate requireOutput).mapError .conflict
  return c

end Classified

end OpenQasm

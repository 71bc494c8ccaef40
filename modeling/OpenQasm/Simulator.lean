import OpenQasm.Backend
import OpenQasm.Outcome

/-!
# Running circuits on a simulator

A simulator takes a program with a number of shots and answers, or fails by throwing a value. It
may keep a state of its own from run to run. A circuit is prepared into a request, the simulator is
called once, and its answer is read out into the output registers. A circuit that cannot be prepared
causes no call. The circuits of a measurement are run in order up to the first failure, and
registers of a later circuit replace those of the same name.

Any value can be thrown. It becomes the cause of an error whose message quotes its text, and the
text has to be asked for: the value may throw another one instead of giving it.
-/
namespace OpenQasm

namespace Simulator

/-- What a simulator is asked to run. -/
structure Request where
  program : String
  shots : Float
  initialState : Option (List Complex)
  deriving DecidableEq, Repr

/-- What a simulator found: outcomes shot by shot or counted, and states if it has them. -/
structure Answer where
  memory : Option (List String)
  counts : Option (Table String Float)
  stateVector : Option (List Complex)
  densityMatrix : Option (List (List Complex))
  deriving DecidableEq, Repr

/-- A value that was thrown: an error of some kind with a message, another value with a text, or a
value of either sort that throws one more value when it is asked for its text. -/
inductive Thrown where
  | error (kind message : String)
  | value (text : String)
  | textless (raised : Thrown)
  deriving DecidableEq, Repr

/-- The text of a thrown value: the message of an error, else what the value is converted to. -/
def Thrown.text : Thrown → Except Thrown String
  | error _ message => .ok message
  | value text => .ok text
  | textless raised => .error raised

inductive Response where
  | answered (answer : Answer)
  | failed (thrown : Thrown)
  deriving DecidableEq, Repr

end Simulator

/-- A simulator with a state of type `σ`. -/
structure Simulator (σ : Type) where
  name : String
  call : σ → Simulator.Request → Simulator.Response × σ

/-- The output registers of a run, by kind and name, shot by shot. -/
structure OutputRegisters where
  bit : Table String (List (List Bool))
  float : Table String (List (List Float))
  complex : Table String (List (List Complex))
  deriving DecidableEq, Repr

namespace OutputRegisters

def empty : OutputRegisters :=
  ⟨.empty, .empty, .empty⟩

/-- All registers of both; those of the second replace those of the first. -/
def merge (r s : OutputRegisters) : OutputRegisters :=
  ⟨r.bit.insertAll s.bit.toList, r.float.insertAll s.float.toList,
    r.complex.insertAll s.complex.toList⟩

end OutputRegisters

namespace Simulator

structure Options where
  allowed : List String
  register : String
  substitutions : List (String × Float)
  reverseBits : Bool

/-- The simulators that are allowed when none are listed. -/
def defaultAllowed : List String :=
  ["aer_simulator"]

def Options.default : Options :=
  ⟨defaultAllowed, defaultRegister, [], false⟩

def Options.backend (o : Options) : Backend.Options :=
  ⟨o.register, none, none, o.substitutions⟩

inductive Error where
  | notAllowed (allowed : List String)
  | classified (e : Classified.Error)
  | backend (e : Backend.Error)
  | failed (simulator reason : String) (cause : Thrown)
  | raised (thrown : Thrown)
  | noOutcomes
  | outcome (e : Outcome.Error)
  | noStateVector
  | noDensityMatrix
  deriving DecidableEq, Repr

def Error.message : Error → String
  | notAllowed allowed =>
      "Input a simulator from the following allowed list: " ++ Text.join ", " allowed
  | classified e => e.message
  | backend e => e.message
  | failed simulator reason _ => "Simulator " ++ simulator ++ " failed: " ++ reason
  | raised thrown => thrown.text.toOption.getD ""
  | noOutcomes => "The simulator returned neither memory nor counts"
  | outcome e => e.message
  | noStateVector => "The simulator returned no state vector"
  | noDensityMatrix => "The simulator returned no density matrix"

/-- What a thrown value is reported as: the cause of an error that quotes its text. A value that
throws another one in place of its text is given up for that one. -/
def Error.ofThrown (simulator : String) (thrown : Thrown) : Error :=
  match thrown.text with
  | .ok reason => .failed simulator reason thrown
  | .error other => .raised other

/-- The simulator, if its name is allowed. -/
def accept {σ : Type} (o : Options) (s : Simulator σ) : Except Error (Simulator σ) :=
  if o.allowed.contains s.name then .ok s else .error (.notAllowed o.allowed)

/-- The classification of a circuit and the request for it. -/
def prepare (o : Options) (ops : List Operation) : Except Error (Classified × Request) := do
  let c ← (Classified.ofOperations none ops true).mapError .classified
  let output ← (Backend.compile o.backend c.circuit.operations false).mapError .backend
  return (c, ⟨output.text, c.metadata.shots, c.initialState⟩)

/-- The bits of an answer: from the memory if there is one, else from the counts. -/
def decode (o : Options) (a : Answer) (lengths : RegisterLengths) :
    Except Error Outcome.BitRegisters :=
  match a.memory, a.counts with
  | some memory, _ => (Outcome.decodeShots memory lengths o.reverseBits).mapError .outcome
  | none, some counts => (Outcome.decodeCounts counts lengths o.reverseBits).mapError .outcome
  | none, none => .error .noOutcomes

/-- Make room for an output register: a bit register holds what was decoded, registers of floats
and complex numbers hold nothing, and the others are left out. -/
def place (decoded : Outcome.BitRegisters) (r : OutputRegisters) (d : Declaration) :
    OutputRegisters :=
  if !d.isOutput then r
  else
    match d.kind with
    | .bit => { r with bit := r.bit.insert d.name ((decoded.get? d.name).getD []) }
    | .float => { r with float := r.float.insert d.name [] }
    | .complex => { r with complex := r.complex.insert d.name [] }
    | .usize => r

/-- Put the state vector, if it was requested, into its register. -/
def placeStateVector (m : Metadata) (a : Answer) (r : OutputRegisters) :
    Except Error OutputRegisters :=
  if m.wantsStateVector then
    match a.stateVector with
    | some v =>
        .ok { r with complex := r.complex.insert (m.stateVectorReadout.getD "statevector") [v] }
    | none => .error .noStateVector
  else .ok r

/-- Put the density matrix, if it was requested, row by row into its register. -/
def placeDensityMatrix (m : Metadata) (a : Answer) (r : OutputRegisters) :
    Except Error OutputRegisters :=
  if m.wantsDensityMatrix then
    match a.densityMatrix with
    | some rows =>
        .ok { r with
          complex := r.complex.insert (m.densityMatrixReadout.getD "density_matrix")
            [rows.flatten] }
    | none => .error .noDensityMatrix
  else .ok r

/-- The output registers that an answer gives. -/
def readout (o : Options) (c : Classified) (a : Answer) : Except Error OutputRegisters := do
  let declarations := c.circuit.definitions
  let decoded ←
    if c.metadata.isMeasured then decode o a (Declaration.lengths declarations none)
    else .ok .empty
  let registers := declarations.foldl (place decoded) .empty
  let registers ← placeStateVector c.metadata a registers
  placeDensityMatrix c.metadata a registers

/-- Run one circuit. -/
def run {σ : Type} (o : Options) (s : Simulator σ) (state : σ) (ops : List Operation) :
    Except Error OutputRegisters × σ :=
  match prepare o ops with
  | .error e => (.error e, state)
  | .ok (c, request) =>
      match s.call state request with
      | (.failed thrown, state) => (.error (.ofThrown s.name thrown), state)
      | (.answered a, state) => (readout o c a, state)

/-- Run circuits in order, adding to the registers so far. -/
def runAll {σ : Type} (o : Options) (s : Simulator σ) (state : σ) (registers : OutputRegisters) :
    List (List Operation) → Except Error OutputRegisters × σ
  | [] => (.ok registers, state)
  | ops :: rest =>
      match run o s state ops with
      | (.error e, state) => (.error e, state)
      | (.ok found, state) => runAll o s state (registers.merge found) rest

/-- Run every circuit of a measurement, each after the constant circuit if there is one. -/
def runMeasurement {σ : Type} (o : Options) (s : Simulator σ) (state : σ)
    (constant : Option Circuit) (circuits : List Circuit) : Except Error OutputRegisters × σ :=
  let before := (constant.map Circuit.operations).getD []
  runAll o s state .empty (circuits.map (fun c => before ++ c.operations))

/-- The state of a scripted simulator: the responses still to come, and the requests so far. -/
structure Script where
  responses : List Response
  requests : List Request
  deriving DecidableEq, Repr

/-- An answer without any finding. -/
def Answer.none : Answer :=
  ⟨.none, .none, .none, .none⟩

/-- A simulator that gives the responses of a script in order, and empty answers after them. -/
def scripted (name : String) : Simulator Script where
  name := name
  call script request :=
    let requests := script.requests ++ [request]
    match script.responses with
    | [] => (.answered .none, ⟨[], requests⟩)
    | response :: rest => (response, ⟨rest, requests⟩)

end Simulator

end OpenQasm

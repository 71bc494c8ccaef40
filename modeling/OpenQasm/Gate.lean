import OpenQasm.Parameter

/-!
# Gates of the table

Fourteen kinds of gates are written by one table: each has a mnemonic, the qubits it acts on in
order, and its parameters, of which some are fixed texts. Gates outside the table, and the other
operations of a circuit, are in `Operation`.
-/
namespace OpenQasm

inductive Axis where
  | x | y | z
  deriving DecidableEq, Repr

/-- Gates on one qubit without a parameter. -/
inductive FixedGate where
  | hadamard | pauliX | pauliY | pauliZ | s | t | sqrtPauliX
  deriving DecidableEq, Repr

/-- Gates on a control and a target. -/
inductive PairGate where
  | cnot | controlledPauliY | controlledPauliZ | molmerSorensenXX
  deriving DecidableEq, Repr

inductive GateKind where
  | rotation (axis : Axis)
  | fixed (gate : FixedGate)
  | pair (gate : PairGate)
  deriving DecidableEq, Repr

inductive QubitSlot where
  | qubit | control | target
  deriving DecidableEq, Repr

inductive ParameterSlot where
  | theta
  deriving DecidableEq, Repr

def QubitSlot.name : QubitSlot → String
  | qubit => "qubit"
  | control => "control"
  | target => "target"

def ParameterSlot.name : ParameterSlot → String
  | theta => "theta"

/-- How gates of one kind are written: `constants` are texts that follow the parameters. -/
structure GateRule where
  mnemonic : String
  qubits : List QubitSlot
  parameters : List ParameterSlot
  constants : List String
  deriving DecidableEq, Repr

namespace GateKind

/-- All kinds, in the order of the table. -/
def all : List GateKind :=
  [.rotation .x, .rotation .y, .rotation .z, .fixed .hadamard, .fixed .pauliX, .fixed .pauliY,
    .fixed .pauliZ, .fixed .s, .fixed .t, .fixed .sqrtPauliX, .pair .cnot,
    .pair .controlledPauliY, .pair .controlledPauliZ, .pair .molmerSorensenXX]

def name : GateKind → String
  | rotation .x => "RotateX"
  | rotation .y => "RotateY"
  | rotation .z => "RotateZ"
  | fixed .hadamard => "Hadamard"
  | fixed .pauliX => "PauliX"
  | fixed .pauliY => "PauliY"
  | fixed .pauliZ => "PauliZ"
  | fixed .s => "SGate"
  | fixed .t => "TGate"
  | fixed .sqrtPauliX => "SqrtPauliX"
  | pair .cnot => "CNOT"
  | pair .controlledPauliY => "ControlledPauliY"
  | pair .controlledPauliZ => "ControlledPauliZ"
  | pair .molmerSorensenXX => "MolmerSorensenXX"

def ofName? (name : String) : Option GateKind :=
  all.find? (fun kind => kind.name == name)

def mnemonic : GateKind → String
  | rotation .x => "rx"
  | rotation .y => "ry"
  | rotation .z => "rz"
  | fixed .hadamard => "h"
  | fixed .pauliX => "x"
  | fixed .pauliY => "y"
  | fixed .pauliZ => "z"
  | fixed .s => "s"
  | fixed .t => "t"
  | fixed .sqrtPauliX => "rx"
  | pair .cnot => "cx"
  | pair .controlledPauliY => "cy"
  | pair .controlledPauliZ => "cz"
  | pair .molmerSorensenXX => "rxx"

/-- The two kinds that are a rotation by a fixed angle say it as a text. -/
def constants : GateKind → List String
  | fixed .sqrtPauliX => ["pi/2"]
  | pair .molmerSorensenXX => ["pi/2"]
  | _ => []

def rule (kind : GateKind) : GateRule :=
  match kind with
  | rotation _ => ⟨kind.mnemonic, [.qubit], [.theta], kind.constants⟩
  | fixed _ => ⟨kind.mnemonic, [.qubit], [], kind.constants⟩
  | pair _ => ⟨kind.mnemonic, [.control, .target], [], kind.constants⟩

end GateKind

inductive Gate where
  | rotation (axis : Axis) (qubit : Float) (theta : Parameter)
  | fixed (gate : FixedGate) (qubit : Float)
  | pair (gate : PairGate) (control target : Float)
  deriving DecidableEq, Repr

/-- What fills the slots of a gate. A slot that the rule of its kind asks for may be empty. -/
structure Slots where
  qubit : Option Float
  control : Option Float
  target : Option Float
  theta : Option Parameter
  deriving DecidableEq, Repr

namespace Slots

def qubit? (s : Slots) : QubitSlot → Option Float
  | .qubit => s.qubit
  | .control => s.control
  | .target => s.target

def parameter? (s : Slots) : ParameterSlot → Option Parameter
  | .theta => s.theta

end Slots

namespace Gate

def kind : Gate → GateKind
  | rotation axis _ _ => .rotation axis
  | fixed gate _ => .fixed gate
  | pair gate _ _ => .pair gate

def slots : Gate → Slots
  | rotation _ qubit theta => ⟨some qubit, none, none, some theta⟩
  | fixed _ qubit => ⟨some qubit, none, none, none⟩
  | pair _ control target => ⟨none, some control, some target, none⟩

def qubits : Gate → List Float
  | rotation _ qubit _ => [qubit]
  | fixed _ qubit => [qubit]
  | pair _ control target => [control, target]

/-- The gate of a kind, if the slots that its rule asks for are filled. -/
def ofSlots? (kind : GateKind) (s : Slots) : Option Gate :=
  match kind with
  | .rotation axis => do return .rotation axis (← s.qubit) (← s.theta)
  | .fixed gate => do return .fixed gate (← s.qubit)
  | .pair gate => do return .pair gate (← s.control) (← s.target)

@[simp] theorem ofSlots?_slots (g : Gate) : ofSlots? g.kind g.slots = some g := by
  cases g <;> rfl

/-- The rule of a gate's kind asks for the qubits that the gate acts on. -/
theorem slots_qubits (g : Gate) : g.kind.rule.qubits.mapM g.slots.qubit? = some g.qubits := by
  cases g <;> rfl

end Gate

end OpenQasm

import OpenQasm.Number.Order
import OpenQasm.Operation
import OpenQasm.QubitName
import OpenQasm.Text.Blank

/-!
# Lines of a program

An operation becomes lines of a program: gates by the table, a general one-qubit gate by its Euler
angles, measurements, register definitions. The parameters of a gate are written before its
qubits, so a parameter without a value is reported before a qubit without a name. Operations that
only speak to the simulator have no line and are refused; the input of a variable is passed over.
-/
namespace OpenQasm

inductive Line where
  | apply (mnemonic : String) (parameters : List String) (operands : List String)
  | measure (source target : String)
  | declare (name : String) (length : Float)
  deriving DecidableEq, Repr

namespace Line

def text : Line → String
  | apply mnemonic parameters operands =>
      (if parameters.isEmpty then mnemonic
        else mnemonic ++ "(" ++ Text.join "," parameters ++ ")") ++
        " " ++ Text.join "," operands
  | measure source target => "measure " ++ source ++ " -> " ++ target
  | declare name length => "creg " ++ element name length

/-- The line with the mark that ends it. -/
def terminated (l : Line) : String :=
  l.text ++ ";"

/-- Why an operation has no line. -/
inductive Gap where
  | noRule
  | metadataOnly
  | missingQubit (slot : QubitSlot)
  | missingParameter (slot : ParameterSlot)
  deriving DecidableEq, Repr

inductive Error where
  | unsupported (operation : String) (gap : Gap)
  | unnamed (e : UnnamedQubit)
  | parameter (e : Parameter.Error)
  deriving DecidableEq, Repr

def Gap.detail : Gap → String
  | noRule => ""
  | metadataOnly => ": metadata-only pragma"
  | missingQubit slot => ": missing qubit slot " ++ slot.name
  | missingParameter slot => ": missing parameter slot " ++ slot.name

def Error.message : Error → String
  | unsupported operation gap => "Operation " ++ operation ++ " not in QASM backend" ++ gap.detail
  | unnamed e => e.message
  | parameter e => e.message

/-- How lines are written: the names of qubits, the values of parameters, and the texts that are
written as parameters as they stand. -/
structure Options where
  naming : Naming
  resolver : Option Resolver
  placeholders : String → Bool

namespace Options

def default : Options :=
  ⟨.default, none, fun _ => false⟩

def qubit (o : Options) (q : Float) : Except Error String :=
  (o.naming.resolve q).mapError .unnamed

def resolve (o : Options) (p : Parameter) : Except Error Float :=
  (p.resolve o.resolver).mapError .parameter

/-- The text of a parameter: a placeholder stays, anything else is evaluated. -/
def parameter (o : Options) (p : Parameter) : Except Error String :=
  match p with
  | .expression text =>
      if o.placeholders text then .ok text else Number.literal <$> o.resolve p
  | .number _ => Number.literal <$> o.resolve p

end Options

/-- The line of a gate of some kind with the given slots filled. -/
def ofSlots (o : Options) (kind : GateKind) (s : Slots) : Except Error Line := do
  let parameters ← kind.rule.parameters.mapM (fun slot =>
    match s.parameter? slot with
    | some p => o.parameter p
    | none => .error (.unsupported kind.name (.missingParameter slot)))
  let operands ← kind.rule.qubits.mapM (fun slot =>
    match s.qubit? slot with
    | some q => o.qubit q
    | none => .error (.unsupported kind.name (.missingQubit slot)))
  return .apply kind.rule.mnemonic (parameters ++ kind.rule.constants) operands

def ofGate (o : Options) (g : Gate) : Except Error Line :=
  ofSlots o g.kind g.slots

/-- The line of a general gate. The global phase has no effect on it and is not evaluated. -/
def ofColumn (o : Options) (g : ColumnGate) : Except Error Line := do
  let alpha : Complex := ⟨← o.resolve g.alphaReal, ← o.resolve g.alphaImag⟩
  let beta : Complex := ⟨← o.resolve g.betaReal, ← o.resolve g.betaImag⟩
  let angles := EulerAngles.ofColumn alpha beta
  let operand ← o.qubit g.qubit
  return .apply "u3"
    [Number.literal angles.theta, Number.literal angles.phi, Number.literal angles.lambda]
    [operand]

def ofMeasurement (o : Options) (m : Measurement) : Except Error Line := do
  return .measure (← o.qubit m.qubit) (element m.readout m.index)

/-- The lines of a repeated measurement: the mapped qubits in ascending order; without a mapping
the named qubits in ascending order, or the whole register. -/
def ofRepeated (o : Options) (m : RepeatedMeasurement) : Except Error (List Line) :=
  match m.mapping with
  | some mapping =>
      let entries := mapping.toList.map (fun e => (Number.read e.1.toList, e.2))
      (Number.sortOn Prod.fst entries).mapM (fun (qubit, bit) => do
        return .measure (← o.qubit qubit) (element m.readout bit))
  | none =>
      match o.naming.names with
      | some names =>
          .ok ((Number.sortOn (fun e => e.1.index) names.toList).map
            (fun (key, name) => .measure name (element m.readout key.index)))
      | none => .ok [.measure o.naming.register m.readout]

/-- The lines of an operation. -/
def ofOperation (o : Options) (op : Operation) : Except Error (List Line) :=
  match op with
  | .gate g => (fun l => [l]) <$> ofGate o g
  | .column g => (fun l => [l]) <$> ofColumn o g
  | .measure m => (fun l => [l]) <$> ofMeasurement o m
  | .measureRepeatedly m => ofRepeated o m
  | .define d => .ok [.declare d.name d.length]
  | .input _ _ => .ok []
  | .setShots _ => .error (.unsupported op.typeName .metadataOnly)
  | .getStateVector _ => .error (.unsupported op.typeName .metadataOnly)
  | .getDensityMatrix _ => .error (.unsupported op.typeName .metadataOnly)
  | .setStateVector _ => .error (.unsupported op.typeName .metadataOnly)
  | .foreign name _ => .error (.unsupported name .noRule)

end Line

end OpenQasm

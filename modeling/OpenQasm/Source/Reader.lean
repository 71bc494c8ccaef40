import OpenQasm.Circuit
import OpenQasm.Source.Command
import OpenQasm.Source.Statement

/-!
# Reading programs

`Source.read` turns a source text into a circuit. Its statements are carried out in order on a
scope, which holds the declared registers and the circuit so far; the first that cannot be carried
out is reported with its line. Qubits are numbered through all qubit registers in the order of
declaration. The operands of a gate are looked up before its parameters are read. A parameter
whose value needs variables stays a text.
-/
namespace OpenQasm.Source

/-- Why a statement is refused. -/
inductive Fault where
  | duplicateVersion
  | unsupportedVersion (version : String)
  | missingHeader
  | declaredTwice (name : String)
  | emptyRegister (name : String)
  | expectedQubit (argument : String)
  | unknownQubits (name : String)
  | qubitOutside (argument name : String) (size : Float)
  | expectedBit (argument : String)
  | unknownBits (name : String)
  | bitOutside (argument name : String) (size : Float)
  | customGate
  | generalGateShape
  | repeatedQubit (mnemonic : String)
  | unknownGate (mnemonic : String) (parameters qubits : Nat)
  | invalidParameter (text : String)
  | symbolicParameter (text : String)
  | unreadable (text : String)
  | unterminated (text : String)
  deriving DecidableEq, Repr

def Fault.message : Fault → String
  | duplicateVersion => "duplicate version header"
  | unsupportedVersion version => "unsupported OpenQASM version " ++ version
  | missingHeader => "missing \"OPENQASM 2.0\" header"
  | declaredTwice name => "register " ++ name ++ " is declared twice"
  | emptyRegister name => "register " ++ name ++ " must have a positive size"
  | expectedQubit argument => "expected an indexed qubit, got \"" ++ argument ++ "\""
  | unknownQubits name => "unknown qubit register " ++ name
  | qubitOutside argument name size =>
      "qubit " ++ argument ++ " is outside " ++ name ++ "[" ++ Number.text size ++ "]"
  | expectedBit argument => "expected an indexed bit, got \"" ++ argument ++ "\""
  | unknownBits name => "unknown classical register " ++ name
  | bitOutside argument name size =>
      "bit " ++ argument ++ " is outside " ++ name ++ "[" ++ Number.text size ++ "]"
  | customGate => "custom gate definitions are not supported"
  | generalGateShape => "u3 takes three parameters and one qubit"
  | repeatedQubit mnemonic => mnemonic ++ " acts on the same qubit twice"
  | unknownGate mnemonic parameters qubits =>
      "unknown gate " ++ mnemonic ++ " with " ++ toString parameters ++ " parameters on " ++
        toString qubits ++ " qubits"
  | invalidParameter text => "invalid parameter \"" ++ text ++ "\""
  | symbolicParameter text => "parameter \"" ++ text ++ "\" must be numeric"
  | unreadable text => "cannot parse \"" ++ text ++ "\""
  | unterminated text => "missing \";\" after \"" ++ text ++ "\""

/-- A refused statement with its line, or an operation that the circuit does not accept. -/
inductive Error where
  | at (line : Nat) (fault : Fault)
  | circuit (e : Circuit.Error)
  deriving DecidableEq, Repr

def Error.message : Error → String
  | .at line fault => "Line " ++ toString line ++ ": " ++ fault.message
  | circuit e => e.message

/-- A qubit register: the number of its first qubit, and its size. -/
structure QubitRegister where
  offset : Float
  size : Float
  deriving DecidableEq, Repr

/-- What has been read so far. -/
structure Scope where
  hasVersion : Bool
  qubitRegisters : Table String QubitRegister
  bitRegisters : Table String Float
  qubitCount : Float
  circuit : Circuit
  deriving DecidableEq, Repr

namespace Scope

def empty : Scope :=
  ⟨false, .empty, .empty, 0, .empty none⟩

/-- The number of the qubit that an operand names. -/
def qubit (s : Scope) (argument : List Char) : Except Fault Float :=
  match indexed? argument with
  | none => .error (.expectedQubit (String.ofList argument))
  | some (name, index) =>
      match s.qubitRegisters.get? name with
      | none => .error (.unknownQubits name)
      | some register =>
          if index >= register.size then
            .error (.qubitOutside (String.ofList argument) name register.size)
          else .ok (register.offset + index)

/-- The register and the index of the bit that a target names. -/
def bit (s : Scope) (argument : List Char) : Except Fault (String × Float) :=
  match indexed? argument with
  | none => .error (.expectedBit (String.ofList argument))
  | some (name, index) =>
      match s.bitRegisters.get? name with
      | none => .error (.unknownBits name)
      | some size =>
          if index >= size then .error (.bitOutside (String.ofList argument) name size)
          else .ok (name, index)

/-- The value of a parameter without variables; a text that has no value stays as it is if a
letter or an underscore occurs in it. -/
def parameter (text : List Char) : Except Fault Parameter :=
  match Calculator.empty.evaluate (.expression (String.ofList text)) with
  | .ok x => .ok (.number x)
  | .error _ =>
      if text.any Text.isNameStart then .ok (.expression (String.ofList text))
      else .error (.invalidParameter (String.ofList text))

/-- The value of a parameter that has to be a number. -/
def numeric (text : List Char) : Except Fault Float := do
  match ← parameter text with
  | .number x => .ok x
  | .expression text => .error (.symbolicParameter text)

/-- The kinds with a mnemonic, those with fixed parameters first. -/
def kindsOf (mnemonic : String) : List GateKind :=
  let kinds := GateKind.all.filter (fun kind => kind.rule.mnemonic == mnemonic)
  kinds.filter (fun kind => !kind.rule.constants.isEmpty) ++
    kinds.filter (fun kind => kind.rule.constants.isEmpty)

/-- Whether numbers of parameters and qubits are those of a rule, and the fixed parameters are
spelled as it says up to blanks. -/
def fits (rule : GateRule) (parameters : List (List Char)) (qubits : Nat) : Bool :=
  rule.qubits.length == qubits &&
    parameters.length == rule.parameters.length + rule.constants.length &&
    (parameters.drop rule.parameters.length).map Text.removeBlanks ==
      rule.constants.map String.toList

/-- The gate of a kind on given qubits with given parameters, if their numbers are right. -/
def gate? (kind : GateKind) (qubits : List Float) (parameters : List Parameter) : Option Gate :=
  match kind, qubits, parameters with
  | .rotation axis, [qubit], [theta] => some (.rotation axis qubit theta)
  | .fixed gate, [qubit], [] => some (.fixed gate qubit)
  | .pair gate, [control, target], [] => some (.pair gate control target)
  | _, _, _ => none

def hasRepeats : List Float → Bool
  | [] => false
  | q :: qs => qs.any (Number.sameKey q) || hasRepeats qs

/-- The operation of a `u3` gate: the first column of its matrix up to a phase. -/
def generalGate (qubit theta phi lambda : Float) : Operation :=
  let sum := (phi + lambda) / 2
  let difference := (phi - lambda) / 2
  let cosine := (theta / 2).cos
  let sine := (theta / 2).sin
  .column ⟨qubit, .number (sum.cos * cosine), .number (0 - sum.sin * cosine),
    .number (difference.cos * sine), .number (difference.sin * sine), .number 0⟩

/-- The operation of a gate statement whose qubits are looked up. -/
def operation (mnemonic : String) (parameters : List (List Char)) (qubits : List Float) :
    Except Fault Operation :=
  if mnemonic == "u3" then
    match parameters, qubits with
    | [theta, phi, lambda], [qubit] => do
        return generalGate qubit (← numeric theta) (← numeric phi) (← numeric lambda)
    | _, _ => .error .generalGateShape
  else if hasRepeats qubits then .error (.repeatedQubit mnemonic)
  else
    let unknown := Fault.unknownGate mnemonic parameters.length qubits.length
    match (kindsOf mnemonic).find? (fun kind => fits kind.rule parameters qubits.length) with
    | none => .error unknown
    | some kind => do
        let values ← (parameters.take kind.rule.parameters.length).mapM parameter
        match gate? kind qubits values with
        | some g => return .gate g
        | none => .error unknown

/-- Declare a register. -/
def declare (s : Scope) (line : Nat) (isQubit : Bool) (name : String) (size : Float) :
    Except Error Scope :=
  if s.qubitRegisters.contains name || s.bitRegisters.contains name then
    .error (.at line (.declaredTwice name))
  else if size < 1 then .error (.at line (.emptyRegister name))
  else if isQubit then
    .ok { s with
      qubitRegisters := s.qubitRegisters.insert name ⟨s.qubitCount, size⟩
      qubitCount := s.qubitCount + size }
  else
    match s.circuit.build (.define ⟨.bit, name, size, true⟩) with
    | .ok circuit => .ok { s with bitRegisters := s.bitRegisters.insert name size, circuit }
    | .error e => .error (.circuit e)

/-- The operation of a measurement: of a whole register if both sides are bare names, else of one
qubit into one bit. -/
def measurement (s : Scope) (source target : List Char) : Except Fault Operation :=
  if Text.isName source && Text.isName target then
    if !s.qubitRegisters.contains (String.ofList source) then
      .error (.unknownQubits (String.ofList source))
    else if !s.bitRegisters.contains (String.ofList target) then
      .error (.unknownBits (String.ofList target))
    else .ok (.measureRepeatedly ⟨String.ofList target, 1, none⟩)
  else do
    let qubit ← s.qubit source
    let (readout, index) ← s.bit target
    return .measure ⟨qubit, readout, index⟩

/-- Add the operation of a statement to the circuit. -/
def emit (s : Scope) (line : Nat) (op : Except Fault Operation) : Except Error Scope :=
  match op with
  | .error fault => .error (.at line fault)
  | .ok op =>
      match s.circuit.add op with
      | .ok circuit => .ok { s with circuit }
      | .error e => .error (.circuit e)

/-- Carry out a statement. -/
def step (s : Scope) (statement : Statement) : Except Error Scope :=
  let line := statement.line
  match Command.ofText statement.text with
  | .version version =>
      if s.hasVersion then .error (.at line .duplicateVersion)
      else if version != "2.0" then .error (.at line (.unsupportedVersion version))
      else .ok { s with hasVersion := true }
  | command =>
      if !s.hasVersion then .error (.at line .missingHeader)
      else
        match command with
        | .declare isQubit name size => s.declare line isQubit name size
        | .measure source target => s.emit line (s.measurement source target)
        | .apply mnemonic parameters operands =>
            if mnemonic == "gate" || mnemonic == "opaque" then .error (.at line .customGate)
            else s.emit line (do
              let qubits ← operands.mapM s.qubit
              operation mnemonic parameters qubits)
        | .unknown => .error (.at line (.unreadable (String.ofList statement.text)))
        | _ => .ok s

/-- Carry out statements in order. -/
def run (s : Scope) : List Statement → Except Error Scope
  | [] => .ok s
  | statement :: rest => do (← s.step statement).run rest

end Scope

/-- A circuit, and the number of qubits of all declared qubit registers. -/
structure Result where
  circuit : Circuit
  qubitCount : Float
  deriving DecidableEq, Repr

/-- The circuit that a source text describes. -/
def read (source : String) : Except Error Result := do
  let (statements, last) := statements source.toList
  let scope ← Scope.empty.run statements
  match last with
  | some statement =>
      .error (.at statement.line (.unterminated (String.ofList statement.text)))
  | none =>
      if scope.hasVersion then return ⟨scope.circuit, scope.qubitCount⟩
      else .error (.at 1 .missingHeader)

end OpenQasm.Source

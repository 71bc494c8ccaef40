import OpenQasm.Register

/-!
# Circuits

A circuit is a list of operations that may have a name. Whatever is added has its qubits checked.
`build` is the careful way to add: it also refuses a gate on one qubit twice, a register that is
empty or defined already, and a count of measurements that is not positive.
-/
namespace OpenQasm

structure Circuit where
  name : Option String
  operations : List Operation
  deriving DecidableEq, Repr

namespace Circuit

/-- Why an operation cannot be added. -/
inductive Error where
  | invalidQubit (qubit : Float)
  | sameQubits
  | invalidLength (name : String) (length : Float)
  | alreadyDefined (name : String)
  | invalidCount (count : Float)
  deriving DecidableEq, Repr

def Error.message : Error → String
  | invalidQubit qubit => "Qubit " ++ Number.text qubit ++ " must be a non-negative integer"
  | sameQubits => "Control and target must be different qubits"
  | invalidLength name length =>
      "Register " ++ name ++ " must have a positive length, got " ++ Number.text length
  | alreadyDefined name => "Register " ++ name ++ " is already defined"
  | invalidCount count =>
      "Number of measurements must be a positive integer, got " ++ Number.text count

def empty (name : Option String) : Circuit :=
  ⟨name, []⟩

def length (c : Circuit) : Nat :=
  c.operations.length

/-- The circuit with one more operation, whose qubits have to be natural numbers. -/
def add (c : Circuit) (op : Operation) : Except Error Circuit :=
  match op.qubits.find? (fun q => !Number.isNatural q) with
  | some q => .error (.invalidQubit q)
  | none => .ok { c with operations := c.operations ++ [op] }

/-- The registers that a circuit defines. -/
def definitions (c : Circuit) : List Declaration :=
  Declaration.collect c.operations

/-- What is asked of an operation beside valid qubits before it is built into a circuit. -/
def check (c : Circuit) (op : Operation) : Except Error Unit :=
  match op with
  | .gate (.pair _ control target) => if control == target then .error .sameQubits else .ok ()
  | .define d =>
      if !Number.isPositive d.length then .error (.invalidLength d.name d.length)
      else if c.definitions.any (fun e => e.name == d.name) then .error (.alreadyDefined d.name)
      else .ok ()
  | .measureRepeatedly m =>
      if Number.isPositive m.count then .ok () else .error (.invalidCount m.count)
  | .setShots s => if Number.isPositive s.count then .ok () else .error (.invalidCount s.count)
  | _ => .ok ()

/-- The circuit with one more operation that passes all checks. -/
def build (c : Circuit) (op : Operation) : Except Error Circuit :=
  match c.check op with
  | .ok () => c.add op
  | .error e => .error e

/-- Add operations in order up to the first that is refused. -/
def append (c : Circuit) : List Operation → Circuit × Option Error
  | [] => (c, none)
  | op :: ops =>
      match c.add op with
      | .ok c => c.append ops
      | .error e => (c, some e)

/-- The circuit of a list of operations, all of which have to be accepted. -/
def ofOperations (name : Option String) (ops : List Operation) : Except Error Circuit :=
  match (empty name).append ops with
  | (c, none) => .ok c
  | (_, some e) => .error e

/-- The operations of one circuit followed by those of another, under the name of the first. -/
def concat (c d : Circuit) : Except Error Circuit :=
  ofOperations c.name (c.operations ++ d.operations)

/-- One more than the highest qubit, or zero if there is none. -/
def qubitCount (c : Circuit) : Float :=
  (c.operations.flatMap Operation.qubits).foldl Number.larger (-1) + 1

/-- The operations with a tag. -/
def withTag (c : Circuit) (tag : String) : List Operation :=
  c.operations.filter (fun op => op.hasTag tag)

/-- Numbers of operations by what they are, and by type in order of first occurrence. -/
structure Stats where
  qubits : Float
  total : Nat
  singleQubitGates : Nat
  twoQubitGates : Nat
  measurements : Nat
  definitions : Nat
  pragmas : Nat
  byType : Table String Nat
  deriving DecidableEq, Repr

def isMeasurement : Operation → Bool
  | .measure _ => true
  | .measureRepeatedly _ => true
  | _ => false

def countByType (ops : List Operation) : Table String Nat :=
  ops.foldl (fun t op => t.insert op.typeName ((t.get? op.typeName).getD 0 + 1)) .empty

def stats (c : Circuit) : Stats where
  qubits := c.qubitCount
  total := c.length
  singleQubitGates := c.operations.countP (fun op => op.hasTag "SingleQubitGateOperation")
  twoQubitGates := c.operations.countP (fun op => op.hasTag "TwoQubitGateOperation")
  measurements := c.operations.countP isMeasurement
  definitions := c.definitions.length
  pragmas := c.operations.countP (fun op => op.hasTag "PragmaOperation")
  byType := countByType c.operations

end Circuit

end OpenQasm

import OpenQasm.Number.Text
import OpenQasm.Table

/-!
# Names of qubits

A qubit is written as an element of the qubit register, or by a name of its own from a supplied
map. A supplied map has to name every qubit that is written.
-/
namespace OpenQasm

/-- A qubit as the key of a map. -/
structure QubitKey where
  index : Float
  deriving Repr

instance : BEq QubitKey :=
  ⟨fun a b => Number.sameKey a.index b.index⟩

abbrev QubitNames := Table QubitKey String

/-- The register's name when none is chosen. -/
def defaultRegister : String :=
  "q"

/-- An element of a register. -/
def element (register : String) (index : Float) : String :=
  register ++ "[" ++ Number.text index ++ "]"

namespace QubitNames

def ofList (entries : List (Float × String)) : QubitNames :=
  Table.ofList (entries.map (fun e => (⟨e.1⟩, e.2)))

/-- Name the qubits from `i` on that lie below `count`, if the counting ends within so many turns.
The counter is a number like any other: at `2 ^ 53` it stops growing. -/
def elementsFrom (count : Float) (register : String) :
    Nat → Float → QubitNames → Option QubitNames
  | 0, i, names => if i < count then none else some names
  | turns + 1, i, names =>
      if i < count then
        elementsFrom count register turns (i + 1) (names.insert ⟨i⟩ (element register i))
      else some names

/-- The names of the qubits below `count` as elements of a register, if the counting ends. It ends
within `2 ^ 53` turns or, as the counter stands still by then, never. -/
def elements (count : Float) (register : String) : Option QubitNames :=
  elementsFrom count register (Nat.pow 2 53) 0 .empty

end QubitNames

/-- A qubit that the supplied names leave out. -/
structure UnnamedQubit where
  qubit : Float
  deriving DecidableEq, Repr

def UnnamedQubit.message (e : UnnamedQubit) : String :=
  "Qubit " ++ Number.text e.qubit ++ " is not in the supplied qubit name map"

/-- How qubits are written. -/
structure Naming where
  register : String
  names : Option QubitNames

namespace Naming

def default : Naming :=
  ⟨defaultRegister, none⟩

def resolve (n : Naming) (qubit : Float) : Except UnnamedQubit String :=
  match n.names with
  | none => .ok (element n.register qubit)
  | some names =>
      match names.get? ⟨qubit⟩ with
      | some name => .ok name
      | none => .error ⟨qubit⟩

end Naming

end OpenQasm

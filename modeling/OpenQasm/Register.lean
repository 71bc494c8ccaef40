import OpenQasm.Operation

/-!
# Classical registers

The registers that a list of operations declares, their lengths by name, and the range of bits
that each register takes when all are laid end to end, the first declared first. A name that is
declared again keeps its place and takes the new length.
-/
namespace OpenQasm

/-- Lengths of registers in the order of declaration. -/
abbrev RegisterLengths := Table String Float

namespace Declaration

/-- The declarations among operations, in order. -/
def collect (ops : List Operation) : List Declaration :=
  ops.filterMap Operation.definition?

/-- The lengths of the declared registers, of the given kinds if some are given. -/
def lengths (ds : List Declaration) (kinds : Option (List RegisterKind)) : RegisterLengths :=
  let chosen : List Declaration := match kinds with
    | some ks => ds.filter (fun d => ks.contains d.kind)
    | none => ds
  Table.ofList (chosen.map (fun d => (d.name, d.length)))

end Declaration

namespace RegisterLengths

/-- The number of bits of all registers. -/
def total (lengths : RegisterLengths) : Float :=
  lengths.values.foldl (fun sum length => sum + length) 0

/-- The first bit of each register and the bit after its last, from bit `start` on. -/
def rangesFrom (start : Float) : List (String × Float) → List (String × Float × Float)
  | [] => []
  | (name, length) :: rest => (name, start, start + length) :: rangesFrom (start + length) rest

/-- The first bit of each register and the bit after its last. -/
def ranges (lengths : RegisterLengths) : List (String × Float × Float) :=
  rangesFrom 0 lengths.toList

end RegisterLengths

end OpenQasm

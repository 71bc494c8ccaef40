import OpenQasm.Line
import OpenQasm.Placeholder

/-!
# Programs

A list of operations becomes the body of a program, declarations and lines in order. With a cache,
a rotation by a symbolic angle is written with a placeholder, and the cache goes on from operation
to operation. `compose` puts a program together: version, library, qubit register, declarations,
lines.
-/
namespace OpenQasm

/-- Declarations and lines, and the cache after the last operation if there is one. -/
structure Body where
  declarations : List Line
  lines : List Line
  cache : Option Placeholder.Cache
  deriving DecidableEq, Repr

namespace Body

/-- What one operation adds to the body. -/
def step (o : Line.Options) (cache : Option Placeholder.Cache) (op : Operation) :
    Except Line.Error Body :=
  match op, cache with
  | .define d, cache => .ok ⟨[.declare d.name d.length], [], cache⟩
  | .gate (.rotation axis qubit theta), some c =>
      if theta.isSymbolic then do
        let (token, c) := c.stage theta
        let line ← Line.ofGate { o with placeholders := c.has }
          (.rotation axis qubit (.expression token))
        return ⟨[], [line], some c⟩
      else do return ⟨[], ← Line.ofOperation o op, cache⟩
  | op, cache => do return ⟨[], ← Line.ofOperation o op, cache⟩

/-- The body of operations in order; the first that cannot be written is reported. -/
def ofOperations (o : Line.Options) :
    Option Placeholder.Cache → List Operation → Except Line.Error Body
  | cache, [] => .ok ⟨[], [], cache⟩
  | cache, op :: ops => do
      let head ← step o cache op
      let tail ← ofOperations o head.cache ops
      return ⟨head.declarations ++ tail.declarations, head.lines ++ tail.lines, tail.cache⟩

end Body

/-- The version of this library. -/
def version : String :=
  "0.1.0"

namespace Program

def header : String :=
  "OPENQASM 2.0;"

def library : String :=
  "include \"qelib1.inc\";"

/-- The text of a program from the texts of its declarations and lines. -/
def compose (register : String) (size : Float) (declarations lines : List String) : String :=
  Text.join "\n" (header :: library :: ("qreg " ++ element register size ++ ";") ::
    (declarations ++ lines)) ++ "\n"

end Program

end OpenQasm

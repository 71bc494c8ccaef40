import OpenQasm.Number.Functions

/-!
# Complex numbers

Amplitudes of gates, of initial states and of the states and density matrices that a simulator
returns; and the Euler angles of a one-qubit gate that is given by the first column of its matrix.
-/
namespace OpenQasm

structure Complex where
  real : Float
  imag : Float
  deriving DecidableEq, Repr

namespace Complex

def zero : Complex :=
  ⟨0, 0⟩

def one : Complex :=
  ⟨1, 0⟩

def magnitude (z : Complex) : Float :=
  Number.hypotenuse [z.real, z.imag]

def magnitudeSquared (z : Complex) : Float :=
  z.real * z.real + z.imag * z.imag

/-- The angle of a number in the plane. -/
def phase (z : Complex) : Float :=
  z.imag.atan2 z.real

def conjugate (z : Complex) : Complex :=
  ⟨z.real, -z.imag⟩

/-- How far apart the parts of two equal numbers may be, unless said otherwise. -/
def defaultTolerance : Float :=
  1e-10

/-- Whether both parts differ by less than a tolerance. -/
def isClose (z w : Complex) (tolerance : Float) : Bool :=
  (z.real - w.real).abs < tolerance && (z.imag - w.imag).abs < tolerance

/-- The Euclidean norm of a vector. -/
def norm (v : List Complex) : Float :=
  (v.foldl (fun (sum : Float) z => sum + magnitudeSquared z) 0).sqrt

end Complex

/-- The angles of a `u3` gate. -/
structure EulerAngles where
  theta : Float
  phi : Float
  lambda : Float
  deriving DecidableEq, Repr

/-- The angles of the gate whose first column is `(alpha, beta)`. The magnitude of `alpha` is kept
within the range of a cosine, so that a column slightly too long still has angles. The angle of
`alpha` is subtracted from zero, so that no negative zero arises. -/
def EulerAngles.ofColumn (alpha beta : Complex) : EulerAngles :=
  let cosine := Number.smaller 1 (Number.larger (-1) alpha.magnitude)
  let a := 0 - alpha.phase
  let b := beta.phase
  ⟨2 * cosine.acos, a + b, a - b⟩

end OpenQasm

/-!
# Numbers as sign, mantissa and exponent

Every quantity of a circuit (qubit indices, lengths, counts, angles) is a 64-bit floating-point
number. A finite one is an integer mantissa times a power of two, and the questions "is it whole",
"which whole number is it" are answered exactly on that pair. Arithmetic itself is left to `Float`.
-/
namespace OpenQasm.Number

def nan : Float :=
  0.0 / 0.0

def infinity : Float :=
  1.0 / 0.0

/-- The value `mantissa * 2 ^ exponent`, negated if `negative`. -/
structure Dyadic where
  negative : Bool
  mantissa : Nat
  exponent : Int
  deriving DecidableEq, Repr

/-- Sign, mantissa and exponent of a finite number, read off its 64 bits. -/
def dyadic (x : Float) : Dyadic :=
  let bits := x.toBits.toNat
  let field : Nat := bits / Nat.pow 2 52 % Nat.pow 2 11
  let fraction := bits % Nat.pow 2 52
  let negative := decide (Nat.pow 2 63 ≤ bits)
  if field = 0 then ⟨negative, fraction, -1074⟩
  else ⟨negative, Nat.pow 2 52 + fraction, (field : Int) - 1075⟩

namespace Dyadic

/-- The magnitude as a quotient of natural numbers. -/
def quotient (d : Dyadic) : Nat × Nat :=
  if 0 ≤ d.exponent then (d.mantissa * Nat.pow 2 d.exponent.toNat, 1)
  else (d.mantissa, Nat.pow 2 (-d.exponent).toNat)

def isWhole (d : Dyadic) : Bool :=
  d.quotient.1 % d.quotient.2 == 0

/-- The whole part, rounded toward zero. -/
def truncate (d : Dyadic) : Int :=
  let n : Int := (d.quotient.1 / d.quotient.2 : Nat)
  if d.negative then -n else n

end Dyadic

/-- Whether a number is finite and has no fractional part. -/
def isWhole (x : Float) : Bool :=
  x.isFinite && (dyadic x).isWhole

/-- Whether a number is a whole number that is not below zero. -/
def isNatural (x : Float) : Bool :=
  isWhole x && !(x < 0)

/-- Whether a number is a whole number from one on. -/
def isPositive (x : Float) : Bool :=
  isWhole x && !(x < 1)

/-- The whole part of a finite number. -/
def truncate (x : Float) : Int :=
  (dyadic x).truncate

def isNegativeZero (x : Float) : Bool :=
  x.toBits == 0x8000000000000000

/-- Equality of numbers as keys: a number that is not one equals itself, and the two zeros are
one key. -/
def sameKey (x y : Float) : Bool :=
  x == y || (x.isNaN && y.isNaN)

end OpenQasm.Number

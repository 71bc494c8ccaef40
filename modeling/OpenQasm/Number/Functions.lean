import OpenQasm.Number.Binary

/-!
# Functions on numbers

The functions of angle expressions and of complex magnitudes whose corner cases are fixed here:
greatest and least tell the two zeros apart and pass on what is not a number, and a power of one
with an infinite exponent is not a number. The trigonometric functions are those of `Float`.
-/
namespace OpenQasm.Number

/-- The greater of two numbers; positive zero is above negative zero. -/
def larger (x y : Float) : Float :=
  if x.isNaN || y.isNaN then nan
  else if x < y then y
  else if y < x then x
  else if isNegativeZero x then y else x

/-- The lesser of two numbers; negative zero is below positive zero. -/
def smaller (x y : Float) : Float :=
  if x.isNaN || y.isNaN then nan
  else if x < y then x
  else if y < x then y
  else if isNegativeZero x then x else y

/-- The greatest of a non-empty list of numbers. -/
def maximum (x : Float) (xs : List Float) : Float :=
  xs.foldl larger x

/-- The least of a non-empty list of numbers. -/
def minimum (x : Float) (xs : List Float) : Float :=
  xs.foldl smaller x

/-- One with the sign of a number; zeros and what is not a number stay as they are. -/
def sign (x : Float) : Float :=
  if 0 < x then 1 else if x < 0 then -1 else x

def power (x y : Float) : Float :=
  if y.isNaN then nan
  else if y.isInf && x.abs == 1 then nan
  else x.pow y

/-- A sum of squares with the rounding error of each addition carried into the next. -/
def compensatedSquares (xs : List Float) : Float :=
  (xs.foldl (fun (sum, compensation) x =>
    let summand := x * x - compensation
    let next := sum + summand
    (next, (next - sum) - summand)) ((0, 0) : Float × Float)).1

/-- The Euclidean length of a vector, scaled by its greatest component so that no square
overflows or vanishes. -/
def hypotenuse (xs : List Float) : Float :=
  if xs.any Float.isInf then infinity
  else if xs.any Float.isNaN then nan
  else
    let top := maximum 0 (xs.map Float.abs)
    if top == 0 then 0
    else (compensatedSquares (xs.map (fun x => x.abs / top))).sqrt * top

end OpenQasm.Number

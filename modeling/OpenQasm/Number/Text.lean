import OpenQasm.Number.Shortest

/-!
# The text of a number

A number is written with its shortest digits. `Number.text` is the plain form, used for indices,
lengths and counts; `Number.literal` is the form of an angle in a program, which always shows a
point or an exponent so that it reads as a real number.
-/
namespace OpenQasm.Number

/-- Positions of the point up to which a number is written without an exponent. -/
structure Layout where
  leading : Int
  trailing : Int

/-- No exponent for up to twenty-one digits before the point, or up to five zeros after it. -/
def plain : Layout :=
  ⟨-6, 21⟩

/-- Digits with the point after the first `n` of them; zeros fill the gap between digits and
point, and outside the layout's range the point follows the first digit and an exponent is given. -/
def Layout.render (l : Layout) (ds : List Char) (n : Int) : List Char :=
  let k : Int := ds.length
  if k ≤ n ∧ n ≤ l.trailing then ds ++ List.replicate (n - k).toNat '0'
  else if 0 < n ∧ n ≤ l.trailing then ds.take n.toNat ++ '.' :: ds.drop n.toNat
  else if l.leading < n ∧ n ≤ 0 then '0' :: '.' :: (List.replicate (-n).toNat '0' ++ ds)
  else
    let mantissa := match ds with
      | [] => []
      | [d] => [d]
      | d :: rest => d :: '.' :: rest
    let sign := if n - 1 < 0 then '-' else '+'
    mantissa ++ 'e' :: sign :: Decimal.digits (n - 1).natAbs

/-- The significant digits of a decimal, without trailing zeros, and the position of its point. -/
def significant (d : Decimal) : List Char × Int :=
  let ds := Decimal.digits d.coefficient
  ((ds.reverse.dropWhile (· == '0')).reverse, ds.length + d.exponent)

/-- The text of a positive finite number. -/
def magnitudeText (x : Float) : List Char :=
  let (ds, point) := significant (Decimal.shortest x)
  plain.render ds point

/-- The characters of a number's text. Both zeros are written `0`. -/
def chars (x : Float) : List Char :=
  if x.isNaN then "NaN".toList
  else if x == 0 then ['0']
  else
    let unsigned := if x.isInf then "Infinity".toList else magnitudeText x.abs
    if x < 0 then '-' :: unsigned else unsigned

/-- The text of a number. -/
def text (x : Float) : String :=
  String.ofList (chars x)

/-- The text of a number as a real literal: negative zero keeps its sign, and a finite number
without point or exponent gets `.0`. -/
def literal (x : Float) : String :=
  if isNegativeZero x then "-0.0"
  else
    let cs := chars x
    if x.isFinite && !cs.any (fun c => c == '.' || c == 'e') then text x ++ ".0"
    else text x

end OpenQasm.Number

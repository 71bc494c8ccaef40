import OpenQasm.Number.Decimal

/-!
# The shortest decimal that reads back

For a positive finite number, `Decimal.shortest` looks at grids of one, two, … seventeen
significant digits. On each grid it tries the two neighbours of the number, and the first grid
with a neighbour that reads back as the number decides. If both neighbours do, the nearer one is
taken, and of two equally near ones the even one.
-/
namespace OpenQasm.Decimal

/-- The position of the decimal point before the leading digit of a positive quotient: the `n`
with `10 ^ (n - 1) ≤ num / den < 10 ^ n`. -/
def pointOf (num den : Nat) : Int :=
  if den ≤ num then (digits (num / den)).length
  else 1 - ((digits (den / num)).length : Int)

/-- The quotient `num / (den * 10 ^ p)`, for `p` of either sign, as numerator and denominator. -/
def scaled (num den : Nat) (p : Int) : Nat × Nat :=
  if 0 ≤ p then (num, den * Nat.pow 10 p.toNat) else (num * Nat.pow 10 (-p).toNat, den)

/-- The neighbour of `x = num / den` on the grid of multiples of `10 ^ p` that reads back as `x`. -/
def onGrid? (x : Float) (num den : Nat) (p : Int) : Option Decimal :=
  let (a, b) := scaled num den p
  let below := a / b
  let lower : Decimal := ⟨below, p⟩
  let upper : Decimal := ⟨below + 1, p⟩
  match lower.toFloat == x, upper.toFloat == x with
  | true, true =>
      if 2 * a < (2 * below + 1) * b then some lower
      else if (2 * below + 1) * b < 2 * a then some upper
      else if below % 2 = 0 then some lower else some upper
  | true, false => some lower
  | false, true => some upper
  | false, false => none

/-- The decimal with fewest significant digits that reads back as the positive finite number `x`,
and of those the nearest to `x`. -/
def shortest (x : Float) : Decimal :=
  let (num, den) := (Number.dyadic x).quotient
  let point := pointOf num den
  match (List.range 17).findSome? (fun (k : Nat) => onGrid? x num den (point - (k + 1))) with
  | some d => d
  | none =>
      let (a, b) := scaled num den (point - 17)
      ⟨a / b, point - 17⟩

/-- What `onGrid?` finds reads back. -/
theorem toFloat_of_onGrid? {x : Float} {num den : Nat} {p : Int} {d : Decimal}
    (h : onGrid? x num den p = some d) : (d.toFloat == x) = true := by
  simp only [onGrid?] at h
  split at h
  next hl hu => split at h <;> (try split at h) <;> (try split at h) <;> simp_all
  all_goals simp_all

end OpenQasm.Decimal

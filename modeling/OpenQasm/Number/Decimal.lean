import OpenQasm.Number.Binary

/-!
# Decimals

A decimal is a whole coefficient times a power of ten. `Decimal.scan?` reads the longest unsigned
decimal at the start of a text, and `Decimal.toFloat` rounds one to the nearest number. Signs and
other spellings of numbers are in `Number/Reader`.
-/
namespace OpenQasm

/-- The value `coefficient * 10 ^ exponent`. -/
structure Decimal where
  coefficient : Nat
  exponent : Int
  deriving DecidableEq, Repr

namespace Decimal

/-- The decimal digits of a natural number. -/
def digits (n : Nat) : List Char :=
  Nat.toDigits 10 n

/-- The natural number that a list of digits spells. -/
def ofDigits (ds : List Char) : Nat :=
  ds.foldl (fun n c => 10 * n + (c.toNat - '0'.toNat)) 0

/-- The nearest number, ties to even. A leading digit far outside the range of numbers decides the
result before any power of ten is computed. -/
def toFloat (d : Decimal) : Float :=
  if d.coefficient = 0 then 0
  else
    let top := (digits d.coefficient).length + d.exponent
    if 310 < top then Number.infinity
    else if top < -330 then 0
    else if d.exponent < 0 then Float.ofScientific d.coefficient true (-d.exponent).toNat
    else Float.ofScientific d.coefficient false d.exponent.toNat

/-- An exponent mark with its digits, if there is one; otherwise nothing is read. -/
def scanExponent (cs : List Char) : Int × List Char :=
  match cs with
  | [] => (0, [])
  | c :: rest =>
      if c == 'e' || c == 'E' then
        let (negative, rest) : Bool × List Char :=
          match rest with
          | '-' :: rest => (true, rest)
          | '+' :: rest => (false, rest)
          | rest => (false, rest)
        let ds := rest.takeWhile Char.isDigit
        if ds.isEmpty then (0, cs)
        else
          let n : Int := ofDigits ds
          (if negative then -n else n, rest.dropWhile Char.isDigit)
      else (0, cs)

/-- The digits after a point, if a point comes first. -/
def scanFraction : List Char → List Char × List Char
  | '.' :: rest => (rest.takeWhile Char.isDigit, rest.dropWhile Char.isDigit)
  | cs => ([], cs)

/-- The longest unsigned decimal at the start of a text, and what follows it: digits with at most
one point among or after them, or a point followed by digits, then an optional exponent. -/
def scan? (cs : List Char) : Option (Decimal × List Char) :=
  let whole := cs.takeWhile Char.isDigit
  let (fraction, rest) := scanFraction (cs.dropWhile Char.isDigit)
  if whole.isEmpty && fraction.isEmpty then none
  else
    let (exponent, rest) := scanExponent rest
    some (⟨ofDigits (whole ++ fraction), exponent - fraction.length⟩, rest)

theorem length_takeWhile_add_dropWhile (p : Char → Bool) (cs : List Char) :
    (cs.takeWhile p).length + (cs.dropWhile p).length = cs.length := by
  rw [← List.length_append, List.takeWhile_append_dropWhile]

theorem scanFraction_length_le (cs : List Char) :
    (scanFraction cs).1.length + (scanFraction cs).2.length ≤ cs.length := by
  unfold scanFraction
  split
  · rename_i rest
    have := length_takeWhile_add_dropWhile Char.isDigit rest
    simp only [List.length_cons]
    omega
  · simp

theorem scanExponent_length_le (cs : List Char) : (scanExponent cs).2.length ≤ cs.length := by
  have drop_le (l : List Char) : (l.dropWhile Char.isDigit).length ≤ l.length :=
    (List.dropWhile_suffix Char.isDigit).length_le
  unfold scanExponent
  split
  · simp
  · split
    · split
      split <;> simp <;> grind
    · simp

/-- Reading a decimal uses up at least one character. -/
theorem scan?_length_lt {cs rest : List Char} {d : Decimal} (h : scan? cs = some (d, rest)) :
    rest.length < cs.length := by
  have hcs := length_takeWhile_add_dropWhile Char.isDigit cs
  have hfraction := scanFraction_length_le (cs.dropWhile Char.isDigit)
  have hexponent := scanExponent_length_le (scanFraction (cs.dropWhile Char.isDigit)).2
  simp only [scan?] at h
  split at h
  · simp at h
  next hsome =>
    simp only [Option.some.injEq, Prod.mk.injEq] at h
    have hpos : 0 < (cs.takeWhile Char.isDigit).length +
        (scanFraction (cs.dropWhile Char.isDigit)).1.length := by
      rcases Nat.eq_zero_or_pos ((cs.takeWhile Char.isDigit).length +
        (scanFraction (cs.dropWhile Char.isDigit)).1.length) with h0 | h0
      · simp_all
      · exact h0
    rw [← h.2]
    omega

end Decimal

end OpenQasm

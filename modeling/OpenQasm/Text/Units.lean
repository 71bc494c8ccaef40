/-!
# Text in 16-bit units

Lengths and positions of outcomes count 16-bit units: a character of the basic plane is one unit,
any other is a pair of a high and a low half. A cut may fall between the two halves, so pieces are
lists of units and not texts.
-/
namespace OpenQasm.Text

/-- The units that encode one character. -/
def charUnits (c : Char) : List UInt16 :=
  let n := c.toNat
  if n < 0x10000 then [n.toUInt16]
  else [(0xD800 + (n - 0x10000) / 0x400).toUInt16, (0xDC00 + (n - 0x10000) % 0x400).toUInt16]

/-- The first unit of a character as a text. The half of a pair has no text of its own and is shown
as the replacement character. -/
def firstUnit (c : Char) : String :=
  if c.toNat < 0x10000 then c.toString else "\uFFFD"

def units (s : List Char) : List UInt16 :=
  s.flatMap charUnits

def unitLength (s : List Char) : Nat :=
  (units s).length

def isHighHalf (u : UInt16) : Bool :=
  0xD800 ≤ u && u < 0xDC00

def isLowHalf (u : UInt16) : Bool :=
  0xDC00 ≤ u && u < 0xE000

/-- A position counted from the start, or from the end if negative, kept within `0 … length`. -/
def clampIndex (length : Nat) (i : Int) : Nat :=
  if i < 0 then (length + i).toNat else min i.toNat length

/-- The piece from one position up to, and not including, another. -/
def slice {α : Type} (xs : List α) (start stop : Int) : List α :=
  let a := clampIndex xs.length start
  let b := clampIndex xs.length stop
  (xs.drop a).take (b - a)

@[simp] theorem units_append (s t : List Char) : units (s ++ t) = units s ++ units t := by
  simp [units]

theorem unitLength_append (s t : List Char) :
    unitLength (s ++ t) = unitLength s + unitLength t := by
  simp [unitLength]

end OpenQasm.Text

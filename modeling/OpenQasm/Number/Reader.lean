import OpenQasm.Number.Decimal
import OpenQasm.Text.Blank

/-!
# Reading numbers

`Number.isLiteral` recognises a signed decimal. `Number.read` gives every text a value: a signed
decimal, an infinity, an unsigned whole number in base 2, 8 or 16, zero for a blank text, and
otherwise the number that is not one. Surrounding blanks are ignored by both.
-/
namespace OpenQasm.Number

/-- A sign, if there is one, and the rest. -/
def scanSign : List Char → Bool × List Char
  | '-' :: rest => (true, rest)
  | '+' :: rest => (false, rest)
  | rest => (false, rest)

/-- The decimal that makes up a whole text, with its sign. -/
def signedDecimal? (cs : List Char) : Option (Bool × Decimal) :=
  let (negative, rest) := scanSign cs
  match Decimal.scan? rest with
  | some (d, []) => some (negative, d)
  | _ => none

/-- Whether a text is a signed decimal. -/
def isLiteral (cs : List Char) : Bool :=
  (signedDecimal? (Text.trim cs)).isSome

/-- The value of a digit in bases up to sixteen. -/
def digitValue? (c : Char) : Option Nat :=
  if c.isDigit then some (c.toNat - '0'.toNat)
  else if 'a' ≤ c ∧ c ≤ 'f' then some (c.toNat - 'a'.toNat + 10)
  else if 'A' ≤ c ∧ c ≤ 'F' then some (c.toNat - 'A'.toNat + 10)
  else none

/-- The whole number that a non-empty list of digits spells in a base. -/
def ofBase? (base : Nat) (cs : List Char) : Option Nat :=
  if cs.isEmpty then none
  else
    cs.foldl (fun n? c => do
      let n ← n?
      let d ← digitValue? c
      if d < base then some (base * n + d) else none) (some 0)

/-- A base mark and the digits after it. -/
def scanBase : List Char → Option (Nat × List Char)
  | '0' :: c :: rest =>
      if c == 'x' || c == 'X' then some (16, rest)
      else if c == 'o' || c == 'O' then some (8, rest)
      else if c == 'b' || c == 'B' then some (2, rest)
      else none
  | _ => none

/-- The number with the given sign and magnitude. -/
def signed (negative : Bool) (x : Float) : Float :=
  if negative then -x else x

/-- The number that a text stands for. -/
def read (cs : List Char) : Float :=
  let cs := Text.trim cs
  if cs.isEmpty then 0
  else
    match scanBase cs with
    | some (base, ds) =>
        match ofBase? base ds with
        | some n => Decimal.toFloat ⟨n, 0⟩
        | none => nan
    | none =>
        match signedDecimal? cs with
        | some (negative, d) => signed negative d.toFloat
        | none =>
            let (negative, rest) := scanSign cs
            if rest == "Infinity".toList then signed negative infinity else nan

end OpenQasm.Number

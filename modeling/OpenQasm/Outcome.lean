import OpenQasm.Register
import OpenQasm.Text.Blank
import OpenQasm.Text.Units

/-!
# Outcomes

A simulator reports an outcome as one text for all bit registers, the last declared on the left,
either run together or with blanks between the registers. `split` cuts an outcome into one word
of bits per register. Shots are split one by one; a histogram repeats each outcome as often as it
was counted.
-/
namespace OpenQasm.Outcome

inductive Error where
  | shape (outcome : String) (expected actual : Float)
  | invalidCount (outcome : String) (count : Float)
  deriving DecidableEq, Repr

def Error.message : Error → String
  | shape outcome expected actual =>
      "Outcome \"" ++ outcome ++ "\" has " ++ Number.text actual ++
        " bits but the registers declare " ++ Number.text expected
  | invalidCount outcome count =>
      "Count for \"" ++ outcome ++ "\" must be a non-negative integer, got " ++ Number.text count

/-- The unit of the digit one. -/
def oneUnit : UInt16 :=
  49

/-- One bit per character of a piece: the digit one is set and any other character is not. Two
halves that belong together are one character, and a half that stands alone is one too. -/
def bits : List UInt16 → List Bool
  | [] => []
  | [u] => [u == oneUnit]
  | u :: v :: rest =>
      if Text.isHighHalf u && Text.isLowHalf v then false :: bits rest
      else (u == oneUnit) :: bits (v :: rest)

/-- The word of a register, from its last bit to its first if `reverse` is set. -/
def word (reverse : Bool) (piece : List UInt16) : List Bool :=
  if reverse then (bits piece).reverse else bits piece

/-- Pieces of the given lengths, one after the other from a position on. -/
def piecesFrom (us : List UInt16) (position : Float) :
    List (String × Float) → List (String × List UInt16)
  | [] => []
  | (name, length) :: rest =>
      (name, Text.slice us (Number.truncate position) (Number.truncate (position + length))) ::
        piecesFrom us (position + length) rest

/-- Pair each register with its group, if there are as many groups as registers and each group has
the length of its register. -/
def matchGroups : List (String × Float) → List (List Char) →
    Option (List (String × List UInt16))
  | [], [] => some []
  | (name, length) :: entries, group :: groups =>
      if Float.ofNat (Text.unitLength group) == length then
        (matchGroups entries groups).map ((name, Text.units group) :: ·)
      else none
  | _, _ => none

/-- The piece of each register in the order of declaration, or the number of characters found if
the outcome does not fit. -/
def pieces (outcome : List Char) (lengths : RegisterLengths) :
    Except Float (List (String × List UInt16)) :=
  let trimmed := Text.trim outcome
  if trimmed.any Text.isBlank then
    let groups := Text.blankGroups trimmed
    match matchGroups lengths.toList groups.reverse with
    | some found => .ok found
    | none => .error (Float.ofNat (groups.foldl (fun n group => n + Text.unitLength group) 0))
  else
    let us := Text.units trimmed
    let actual := Float.ofNat us.length
    if actual == lengths.total then .ok (piecesFrom us 0 lengths.toList.reverse).reverse
    else .error actual

/-- The word of each register in the order of declaration. -/
def split (outcome : String) (lengths : RegisterLengths) (reverse : Bool) :
    Except Error (List (String × List Bool)) :=
  match pieces outcome.toList lengths with
  | .ok found => .ok (found.map (fun (name, piece) => (name, word reverse piece)))
  | .error actual => .error (.shape outcome lengths.total actual)

/-- The words of all shots, register by register. -/
abbrev BitRegisters := Table String (List (List Bool))

/-- Gather the words of each register over all shots. -/
def gather (lengths : RegisterLengths) (shots : List (List (String × List Bool))) : BitRegisters :=
  ⟨lengths.keys.map (fun name => (name, shots.map (fun shot => (shot.lookup name).getD [])))⟩

def decodeShots (outcomes : List String) (lengths : RegisterLengths) (reverse : Bool) :
    Except Error BitRegisters := do
  let shots ← outcomes.mapM (fun outcome => split outcome lengths reverse)
  return gather lengths shots

/-- The shots of one entry of a histogram. An outcome that was never counted still has to fit. -/
def expand (lengths : RegisterLengths) (reverse : Bool) (outcome : String) (count : Float) :
    Except Error (List (List (String × List Bool))) :=
  if Number.isNatural count then do
    let shot ← split outcome lengths reverse
    return List.replicate (Number.truncate count).toNat shot
  else .error (.invalidCount outcome count)

def decodeCounts (counts : Table String Float) (lengths : RegisterLengths) (reverse : Bool) :
    Except Error BitRegisters := do
  let shots ← counts.toList.mapM (fun (outcome, count) => expand lengths reverse outcome count)
  return gather lengths shots.flatten

end OpenQasm.Outcome

import OpenQasm.Number.Decimal
import OpenQasm.Text.Blank
import OpenQasm.Text.Word

/-!
# Commands

The form of a statement, told from its text alone: a version, something to pass over, the
declaration of a register, a measurement, or the application of a gate. Whether its names are
declared and its gate is known is not asked here. The forms are tried in that order.
-/
namespace OpenQasm.Source

inductive Command where
  | version (version : String)
  | skip
  | declare (isQubit : Bool) (name : String) (size : Float)
  | measure (source target : List Char)
  | apply (mnemonic : String) (arguments : List (List Char)) (operands : List (List Char))
  | unknown
  deriving DecidableEq, Repr

/-- What follows a keyword and at least one blank. -/
def afterKeyword? (keyword : String) (cs : List Char) : Option (List Char) :=
  let rest := cs.drop keyword.length
  if cs.take keyword.length == keyword.toList && (rest.head?.any Text.isBlank) then
    some (Text.trimStart rest)
  else none

/-- An element of a register: a name and a number in brackets. -/
def indexed? (cs : List Char) : Option (String × Float) := do
  let (name, rest) ← Text.scanName? cs
  match Text.trimStart rest with
  | '[' :: rest =>
      let rest := Text.trimStart rest
      let ds := rest.takeWhile Char.isDigit
      if !ds.isEmpty && Text.trimStart (rest.dropWhile Char.isDigit) == [']'] then
        some (String.ofList name, Decimal.toFloat ⟨Decimal.ofDigits ds, 0⟩)
      else none
  | _ => none

def version? (cs : List Char) : Option String := do
  let rest ← afterKeyword? "OPENQASM" cs
  if !rest.isEmpty && !rest.any Text.isBlank then some (String.ofList rest) else none

/-- Whether a text asks for a library by a quoted name. -/
def isInclude (cs : List Char) : Bool :=
  match afterKeyword? "include" cs with
  | some ('"' :: rest) => rest.dropWhile (· != '"') == ['"']
  | _ => false

def isBarrier (cs : List Char) : Bool :=
  cs == "barrier".toList || (afterKeyword? "barrier" cs).isSome

def declaration? (cs : List Char) : Option Command :=
  match afterKeyword? "qreg" cs with
  | some rest => (indexed? rest).map (fun (name, size) => .declare true name size)
  | none => do
      let rest ← afterKeyword? "creg" cs
      let (name, size) ← indexed? rest
      return .declare false name size

/-- The texts before and after the first arrow that has something on both sides. -/
def splitArrow? : List Char → Option (List Char × List Char)
  | [] => none
  | c :: cs =>
      match cs with
      | '-' :: '>' :: rest =>
          if (Text.trimStart rest).isEmpty then (splitArrow? cs).map (fun (a, b) => (c :: a, b))
          else some ([c], Text.trimStart rest)
      | _ => (splitArrow? cs).map (fun (a, b) => (c :: a, b))

def measurement? (cs : List Char) : Option Command := do
  let rest ← afterKeyword? "measure" cs
  let (source, target) ← splitArrow? rest
  return .measure (Text.trimEnd source) target

/-- How a character changes the depth of parentheses. -/
def depthChange (c : Char) : Int :=
  if c == '(' then 1 else if c == ')' then -1 else 0

/-- The pieces between the commas at depth zero, where the text starts at the given depth. -/
def splitAtDepth (depth : Int) : List Char → List (List Char)
  | [] => [[]]
  | c :: cs =>
      if c == ',' && depth == 0 then [] :: splitAtDepth 0 cs
      else (splitAtDepth (depth + depthChange c) cs).modifyHead (c :: ·)

/-- The arguments of a gate: the pieces between the commas outside parentheses. -/
def splitArguments (cs : List Char) : List (List Char) :=
  (splitAtDepth 0 cs).map Text.trim

/-- The texts before and after the last closing parenthesis. -/
def splitAtLastClosing? (cs : List Char) : Option (List Char × List Char) :=
  match cs.reverse.dropWhile (· != ')') with
  | [] => none
  | _ :: before => some (before.reverse, (cs.reverse.takeWhile (· != ')')).reverse)

/-- The operands of a gate: separated by commas, with a blank before them and no parentheses. -/
def operands? (cs : List Char) : Option (List (List Char)) :=
  let rest := Text.trimStart cs
  if (cs.head?.any Text.isBlank) && !rest.isEmpty && !rest.any (fun c => c == '(' || c == ')') then
    some ((Text.splitWhere (· == ',') rest).map Text.trim)
  else none

/-- A mnemonic, arguments in parentheses up to the last closing one, and operands. -/
def application? (cs : List Char) : Option Command := do
  let (mnemonic, rest) ← Text.scanName? cs
  match Text.trimStart rest with
  | '(' :: inner =>
      let (arguments, rest) ← splitAtLastClosing? inner
      return .apply (String.ofList mnemonic) (splitArguments arguments) (← operands? rest)
  | _ => return .apply (String.ofList mnemonic) [] (← operands? rest)

/-- The command that a statement's text spells. -/
def Command.ofText (cs : List Char) : Command :=
  match version? cs with
  | some v => .version v
  | none =>
      if isInclude cs || isBarrier cs then .skip
      else ((declaration? cs <|> measurement? cs) <|> application? cs).getD .unknown

end OpenQasm.Source

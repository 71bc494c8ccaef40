import OpenQasm.Number.Text
import OpenQasm.Text.Blank
import OpenQasm.Text.Word

/-!
# Tokens of an expression

An angle expression is a text of numbers, names and symbols, with blanks anywhere between them.
`lex` cuts it into tokens; it fails at the first character at which no token starts.
-/
namespace OpenQasm.Expr

open OpenQasm.Text (isNameStart isNameChar)

inductive Symbol where
  | plus | minus | times | divide | power | opening | closing | comma
  deriving DecidableEq, Repr

inductive Token where
  | number (x : Float)
  | name (s : String)
  | symbol (s : Symbol)
  deriving DecidableEq, Repr

def Symbol.text : Symbol → String
  | plus => "+"
  | minus => "-"
  | times => "*"
  | divide => "/"
  | power => "^"
  | opening => "("
  | closing => ")"
  | comma => ","

/-- A token as messages quote it: a number by its value. -/
def Token.text : Token → String
  | .number x => Number.text x
  | .name s => s
  | .symbol s => s.text

/-- The symbol that starts with a character, and the rest; a doubled star is a power. -/
def scanSymbol? (c : Char) (rest : List Char) : Option (Symbol × List Char) :=
  match c with
  | '+' => some (.plus, rest)
  | '-' => some (.minus, rest)
  | '*' =>
      match rest with
      | '*' :: rest => some (.power, rest)
      | rest => some (.times, rest)
  | '/' => some (.divide, rest)
  | '^' => some (.power, rest)
  | '(' => some (.opening, rest)
  | ')' => some (.closing, rest)
  | ',' => some (.comma, rest)
  | _ => none

theorem scanSymbol?_length_le {c : Char} {rest rest' : List Char} {s : Symbol}
    (h : scanSymbol? c rest = some (s, rest')) : rest'.length ≤ rest.length := by
  unfold scanSymbol? at h
  grind

/-- The tokens of a text, or the character at which none starts together with the number of
characters from it to the end. -/
def lex (cs : List Char) : Except (Char × Nat) (List Token) :=
  match cs with
  | [] => .ok []
  | c :: rest =>
      if Text.isBlank c then lex rest
      else if c.isDigit || c == '.' then
        match h : Decimal.scan? (c :: rest) with
        | some (d, rest') => (Token.number d.toFloat :: ·) <$> lex rest'
        | none => .error (c, rest.length + 1)
      else if isNameStart c then
        (Token.name (String.ofList (c :: rest.takeWhile isNameChar)) :: ·) <$>
          lex (rest.dropWhile isNameChar)
      else
        match h : scanSymbol? c rest with
        | some (s, rest') => (Token.symbol s :: ·) <$> lex rest'
        | none => .error (c, rest.length + 1)
termination_by cs.length
decreasing_by
  · simp
  · exact Decimal.scan?_length_lt h
  · have := (List.dropWhile_suffix (l := rest) isNameChar).length_le
    simp only [List.length_cons]
    omega
  · have := scanSymbol?_length_le h
    simp only [List.length_cons]
    omega

end OpenQasm.Expr

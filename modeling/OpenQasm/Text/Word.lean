/-!
# Words

Names start with an ASCII letter or an underscore and go on with those and digits. A word is a run
of the characters of names, and may also start with a digit.
-/
namespace OpenQasm.Text

def isNameStart (c : Char) : Bool :=
  c.isAlpha || c == '_'

def isNameChar (c : Char) : Bool :=
  isNameStart c || c.isDigit

/-- Whether a text is one name. -/
def isName : List Char → Bool
  | [] => false
  | c :: cs => isNameStart c && cs.all isNameChar

/-- The name at the start of a text, and the rest. -/
def scanName? : List Char → Option (List Char × List Char)
  | [] => none
  | c :: cs =>
      if isNameStart c then some (c :: cs.takeWhile isNameChar, cs.dropWhile isNameChar) else none

end OpenQasm.Text

import OpenQasm.Text.Blank

/-!
# Statements of a source text

A source text is cut into statements at semicolons, after comments are removed line by line. The
text of a statement has its blanks collapsed, and its line is that of its first character that is
not blank. What follows the last semicolon is kept apart: it should be blank.
-/
namespace OpenQasm.Source

structure Statement where
  line : Nat
  text : List Char
  deriving DecidableEq, Repr

/-- A line without its comment. A comment reaches to the end of the line, so two slashes with a
line-ending character after them start none. -/
def stripComment : List Char → List Char
  | [] => []
  | c :: cs =>
      if c == '/' && cs.head? == some '/' && !cs.any Text.isLineEnd then []
      else c :: stripComment cs

/-- A source without its comments; every line keeps its place. -/
def stripComments (source : List Char) : List Char :=
  List.intercalate ['\n'] ((Text.splitWhere (· == '\n') source).map stripComment)

def newlines (cs : List Char) : Nat :=
  cs.countP (· == '\n')

/-- The statement in a part of the source that starts on a given line, unless it is blank. -/
def Statement.ofPart? (line : Nat) (part : List Char) : Option Statement :=
  let text := Text.collapseBlanks (Text.trim part)
  if text.isEmpty then none else some ⟨line + newlines (part.takeWhile Text.isBlank), text⟩

/-- The statements in the parts between semicolons, and the one after the last semicolon. -/
def statementsFrom (line : Nat) : List (List Char) → List Statement × Option Statement
  | [] => ([], none)
  | [part] => ([], Statement.ofPart? line part)
  | part :: rest =>
      let (statements, last) := statementsFrom (line + newlines part) rest
      ((Statement.ofPart? line part).toList ++ statements, last)

/-- The terminated statements of a source in order, and an unterminated last one. -/
def statements (source : List Char) : List Statement × Option Statement :=
  statementsFrom 1 (Text.splitWhere (· == ';') (stripComments source))

end OpenQasm.Source

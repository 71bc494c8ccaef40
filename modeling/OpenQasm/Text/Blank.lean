/-!
# Blank characters and cutting text

Text is worked on as a list of characters. This module fixes which characters are blank, and
holds the operations that cut a text at blanks or at separators: trimming, dropping all blanks,
collapsing runs of them, splitting. Letters, digits and words are in the modules that read them.
-/
namespace OpenQasm.Text

/-- The blank characters: the ASCII controls from tab to carriage return, the space separators,
the two line and paragraph separators, and the byte order mark. -/
def isBlank (c : Char) : Bool :=
  let n := c.toNat
  (0x09 ≤ n && n ≤ 0x0D) || n == 0x20 || n == 0xA0 || n == 0x1680 ||
    (0x2000 ≤ n && n ≤ 0x200A) || n == 0x2028 || n == 0x2029 || n == 0x202F ||
    n == 0x205F || n == 0x3000 || n == 0xFEFF

/-- The characters that end a line of text. -/
def isLineEnd (c : Char) : Bool :=
  c == '\n' || c == '\r' || c == '\u2028' || c == '\u2029'

def trimStart (s : List Char) : List Char :=
  s.dropWhile isBlank

def trimEnd (s : List Char) : List Char :=
  (s.reverse.dropWhile isBlank).reverse

def trim (s : List Char) : List Char :=
  trimEnd (trimStart s)

def removeBlanks (s : List Char) : List Char :=
  s.filter (fun c => !isBlank c)

/-- Collapse blanks, where `after` says that the character before was blank. -/
def collapseFrom (after : Bool) : List Char → List Char
  | [] => []
  | c :: cs =>
      if isBlank c then
        if after then collapseFrom true cs else ' ' :: collapseFrom true cs
      else c :: collapseFrom false cs

/-- Each run of blanks becomes one space. -/
def collapseBlanks (s : List Char) : List Char :=
  collapseFrom false s

/-- The pieces between the characters that satisfy `p`; one piece more than there are cuts. -/
def splitWhere (p : Char → Bool) : List Char → List (List Char)
  | [] => [[]]
  | c :: cs => if p c then [] :: splitWhere p cs else (splitWhere p cs).modifyHead (c :: ·)

/-- The maximal runs of characters that are not blank. -/
def blankGroups (s : List Char) : List (List Char) :=
  (splitWhere isBlank s).filter (fun g => !g.isEmpty)

/-- The texts in order with `separator` between them. -/
def join (separator : String) : List String → String
  | [] => ""
  | [s] => s
  | s :: rest => s ++ separator ++ join separator rest

@[simp] theorem splitWhere_ne_nil (p : Char → Bool) (s : List Char) : splitWhere p s ≠ [] := by
  cases s with
  | nil => simp [splitWhere]
  | cons c cs =>
      simp only [splitWhere]
      split
      · simp
      · have h := splitWhere_ne_nil p cs
        cases hs : splitWhere p cs with
        | nil => exact absurd hs h
        | cons g gs => simp

theorem removeBlanks_append (s t : List Char) :
    removeBlanks (s ++ t) = removeBlanks s ++ removeBlanks t := by
  simp [removeBlanks]

end OpenQasm.Text

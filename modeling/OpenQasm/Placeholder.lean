import OpenQasm.Parameter
import OpenQasm.Text.Units
import OpenQasm.Text.Word

/-!
# Placeholders

A symbolic angle can be written as a token that stands for it until values are known. The cache
remembers what each token stands for. Values that are spelled alike up to blanks share a token.
Once the staged values are evaluated, `substitute` puts the numbers in place of the tokens: it
replaces whole words only, so a longer name that contains a token is left alone.
-/
namespace OpenQasm.Placeholder

/-- The 32-bit hash of a text: each 16-bit unit is mixed in by exclusive or, then the state is
multiplied by a fixed prime. -/
def hash (cs : List Char) : UInt32 :=
  (Text.units cs).foldl (fun state u => (state ^^^ u.toUInt32) * 0x01000193) 0x811c9dc5

/-- Eight hexadecimal digits. -/
def hexText (n : UInt32) : String :=
  let ds := Nat.toDigits 16 n.toNat
  String.ofList (List.replicate (8 - ds.length) '0' ++ ds)

/-- The text by which values are told apart. -/
def canonical : Parameter → String
  | .number x => Number.literal x
  | .expression text => String.ofList (Text.removeBlanks text.toList)

def marker : String :=
  "sym_"

def baseToken (key : String) : String :=
  marker ++ hexText (hash key.toList)

/-- The `probe`-th token for a base: the base itself, then with a numbered ending. -/
def candidate (base : String) (probe : Nat) : String :=
  if probe = 0 then base else base ++ "_" ++ toString probe

def isHexDigit (c : Char) : Bool :=
  c.isDigit || ('a' ≤ c && c ≤ 'f')

/-- Whether a place is at an end of a word: of the characters before and after it one is part of a
name and the other is not. The ends of a text count as other characters. -/
def isBoundary (before after : Option Char) : Bool :=
  before.any Text.isNameChar != after.any Text.isNameChar

/-- The endings that a token can have where the given text goes on, each with what follows it: an
underscore with a number, the longest first, and last no ending. -/
def endings (cs : List Char) : List (List Char × List Char) :=
  match cs with
  | '_' :: rest =>
      (List.range (rest.takeWhile Char.isDigit).length).reverse.map (fun n => cs.splitAt (n + 2)) ++
        [([], cs)]
  | cs => [([], cs)]

/-- The token at the start of a text, and what follows it: the marker, eight hexadecimal digits, and
the first ending after which a word ends. `before` is the character before the text, with which no
word may go on. -/
def matchToken? (before : Option Char) (cs : List Char) : Option (List Char × List Char) :=
  let (base, rest) := cs.splitAt 12
  if isBoundary before cs.head? && base.take 4 == marker.toList && (base.drop 4).length == 8 &&
      (base.drop 4).all isHexDigit then
    ((endings rest).find? (fun (ending, after) =>
      isBoundary (base ++ ending).getLast? after.head?)).map
        (fun (ending, after) => (base ++ ending, after))
  else none

theorem append_of_mem_endings {cs ending after : List Char} (h : (ending, after) ∈ endings cs) :
    ending ++ after = cs := by
  unfold endings at h
  split at h
  next =>
    rcases List.mem_append.mp h with h | h
    · obtain ⟨n, -, hn⟩ := List.mem_map.mp h
      rw [List.splitAt_eq] at hn
      cases hn
      exact List.take_append_drop _ _
    · cases List.mem_singleton.mp h
      rfl
  next =>
    cases List.mem_singleton.mp h
    rfl

/-- A token is a part of the text that is not empty. -/
theorem matchToken?_length_lt {before : Option Char} {cs token rest : List Char}
    (h : matchToken? before cs = some (token, rest)) : rest.length < cs.length := by
  unfold matchToken? at h
  rw [List.splitAt_eq] at h
  dsimp only at h
  split at h
  next hbase =>
    obtain ⟨⟨ending, after⟩, hfind, heq⟩ := Option.map_eq_some_iff.mp h
    have hafter : after = rest := (Prod.mk.inj heq).2
    have hrest := congrArg List.length (append_of_mem_endings (List.mem_of_find?_eq_some hfind))
    rw [hafter, List.length_append, List.length_drop] at hrest
    simp only [Bool.and_eq_true, beq_iff_eq, List.length_drop, List.length_take] at hbase
    omega
  next => cases h

/-- What tokens stand for, in the order of staging, and the token of each canonical text. -/
structure Cache where
  values : Table String Parameter
  tokens : Table String String
  deriving DecidableEq, Repr

namespace Cache

def empty : Cache :=
  ⟨.empty, .empty⟩

def size (c : Cache) : Nat :=
  c.values.toList.length

def has (c : Cache) (token : String) : Bool :=
  c.values.contains token

def entries (c : Cache) : List (String × Parameter) :=
  c.values.toList

/-- The first candidate that is not taken. A cache takes no more tokens than it has entries, so
one is free among one more than that. -/
def freeToken (c : Cache) (base : String) : String :=
  (((List.range (c.size + 1)).map (candidate base)).find? (fun t => !c.has t)).getD base

/-- The token for a value. A value that is staged already, by its canonical text, keeps its token
and leaves the cache as it is. -/
def stage (c : Cache) (value : Parameter) : String × Cache :=
  let key := canonical value
  match c.tokens.get? key with
  | some token => (token, c)
  | none =>
      let token := c.freeToken (baseToken key)
      (token, ⟨c.values.insert token value, c.tokens.insert key token⟩)

def stageAll (c : Cache) (values : List Parameter) : Cache :=
  values.foldl (fun c value => (c.stage value).2) c

/-- What a token stands for. -/
def resolve (c : Cache) (token : String) : Except Parameter.Error Parameter :=
  match c.values.get? token with
  | some value => .ok value
  | none => .error ⟨token, .unknownPlaceholder⟩

/-- The number of every staged value. -/
def bind (c : Cache) (resolver : Resolver) : Except Parameter.Error (List (String × Float)) :=
  c.entries.mapM (fun (token, value) => (fun x => (token, x)) <$> resolver value)

end Cache

/-- The number in place of a token. -/
def numberOf (values : Table String Float) (token : List Char) :
    Except Parameter.Error (List Char) :=
  match values.get? (String.ofList token) with
  | some x => .ok (Number.literal x).toList
  | none => .error ⟨String.ofList token, .unboundPlaceholder⟩

/-- A text with a number in place of each token, from left to right. `before` is the character
before the text. -/
def substituteFrom (values : Table String Float) (before : Option Char) (cs : List Char) :
    Except Parameter.Error (List Char) :=
  match cs with
  | [] => .ok []
  | c :: rest =>
      match h : matchToken? before (c :: rest) with
      | some (token, after) =>
          have := matchToken?_length_lt h
          numberOf values token >>= fun number =>
            (number ++ ·) <$> substituteFrom values token.getLast? after
      | none => (c :: ·) <$> substituteFrom values (some c) rest
termination_by cs.length
decreasing_by
  · assumption
  · exact Nat.lt_succ_self _

/-- A text with a number in place of each token. -/
def substitute (text : String) (values : Table String Float) : Except Parameter.Error String :=
  String.ofList <$> substituteFrom values none text.toList

end OpenQasm.Placeholder

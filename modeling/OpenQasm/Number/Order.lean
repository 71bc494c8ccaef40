/-!
# Ordering by a number

`sortOn` lists entries in ascending order of a number, entries with equal numbers in the order in
which they came. The leading run that is in order already stays, and one that falls strictly is
reversed; each further entry is placed by bisection. A number that is not one is neither below nor
above any other, so it stays about where it was.
-/
namespace OpenQasm.Number

variable {α : Type}

/-- The place between `left` and `right` for a number among those of a list: after the last one
that bisection finds not above it. -/
def place (keys : List Float) (key : Float) (left right : Nat) : Nat :=
  if left < right then
    let middle := left + (right - left) / 2
    if key < keys.getD middle 0 then place keys key left middle
    else place keys key (middle + 1) right
  else left
termination_by right - left

/-- Put an entry into its place in an ordered list. -/
def insertOn (key : α → Float) (xs : List α) (x : α) : List α :=
  let i := place (xs.map key) (key x) 0 xs.length
  xs.take i ++ x :: xs.drop i

/-- The longest run after `previous` in which each number stands to the one before it as `ordered`
says, and the rest. -/
def spanRun (key : α → Float) (ordered : Float → Float → Bool) (previous : α) :
    List α → List α × List α
  | [] => ([], [])
  | x :: xs =>
      if ordered (key previous) (key x) then
        let (run, rest) := spanRun key ordered x xs
        (x :: run, rest)
      else ([], x :: xs)

/-- The entries in ascending order of their numbers. -/
def sortOn (key : α → Float) : List α → List α
  | [] => []
  | [x] => [x]
  | x :: y :: rest =>
      if key y < key x then
        let (run, rest) := spanRun key (fun a b => b < a) y rest
        rest.foldl (insertOn key) (x :: y :: run).reverse
      else
        let (run, rest) := spanRun key (fun a b => !(b < a)) y rest
        rest.foldl (insertOn key) (x :: y :: run)

end OpenQasm.Number

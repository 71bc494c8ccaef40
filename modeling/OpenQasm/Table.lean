/-!
# Tables

A table is an association that remembers the order in which its keys came. Writing to a key that
is present replaces the value and keeps the place. `Table.indexFirst` is the order in which
records list their fields: keys that spell an index come first, ascending, then the others in the
order in which they came.
-/
namespace OpenQasm

structure Table (κ ν : Type) where
  toList : List (κ × ν)
  deriving DecidableEq, Repr

namespace Table

variable {κ ν : Type}

def empty : Table κ ν :=
  ⟨[]⟩

instance : Inhabited (Table κ ν) :=
  ⟨empty⟩

def keys (t : Table κ ν) : List κ :=
  t.toList.map Prod.fst

def values (t : Table κ ν) : List ν :=
  t.toList.map Prod.snd

def get? [BEq κ] (t : Table κ ν) (k : κ) : Option ν :=
  t.toList.lookup k

def contains [BEq κ] (t : Table κ ν) (k : κ) : Bool :=
  (t.get? k).isSome

/-- The entries after a write of `v` at `k`. -/
def insertEntry [BEq κ] (k : κ) (v : ν) : List (κ × ν) → List (κ × ν)
  | [] => [(k, v)]
  | (k', v') :: rest => if k == k' then (k', v) :: rest else (k', v') :: insertEntry k v rest

def insert [BEq κ] (t : Table κ ν) (k : κ) (v : ν) : Table κ ν :=
  ⟨insertEntry k v t.toList⟩

/-- Write all entries of a list in order. -/
def insertAll [BEq κ] (t : Table κ ν) (entries : List (κ × ν)) : Table κ ν :=
  entries.foldl (fun t e => t.insert e.1 e.2) t

def ofList [BEq κ] (entries : List (κ × ν)) : Table κ ν :=
  empty.insertAll entries

/-- The index below `2 ^ 32 - 1` that a key spells in decimal without leading zeros. -/
def index? (key : String) : Option Nat :=
  let ds := key.toList
  if ds.isEmpty || !ds.all Char.isDigit || (ds.length ≠ 1 && ds.head? == some '0') then none
  else
    let n := ds.foldl (fun n c => 10 * n + (c.toNat - '0'.toNat)) 0
    if n < 0xFFFFFFFF then some n else none

/-- The same entries, those whose key is an index first and ascending. -/
def indexFirst (t : Table String ν) : Table String ν :=
  let indexed := t.toList.filterMap (fun e => (index? e.1).map (fun n => (n, e)))
  let others := t.toList.filter (fun e => (index? e.1).isNone)
  ⟨(indexed.mergeSort (fun a b => decide (a.1 ≤ b.1))).map Prod.snd ++ others⟩

@[simp] theorem get?_insert_self [BEq κ] [LawfulBEq κ] (t : Table κ ν) (k : κ) (v : ν) :
    (t.insert k v).get? k = some v := by
  obtain ⟨entries⟩ := t
  simp only [get?, insert]
  induction entries with
  | nil => simp [insertEntry]
  | cons e rest ih =>
      obtain ⟨k', v'⟩ := e
      by_cases h : k = k'
      · subst h
        simp [insertEntry]
      · have hb : (k == k') = false := by simp [h]
        simp [insertEntry, hb, List.lookup_cons, ih]

theorem get?_insert_of_ne [BEq κ] [LawfulBEq κ] (t : Table κ ν) {k l : κ} (v : ν) (h : l ≠ k) :
    (t.insert k v).get? l = t.get? l := by
  obtain ⟨entries⟩ := t
  simp only [get?, insert]
  induction entries with
  | nil =>
      have hb : (l == k) = false := by simp [h]
      simp [insertEntry, List.lookup_cons, hb]
  | cons e rest ih =>
      obtain ⟨k', v'⟩ := e
      by_cases hk : k = k'
      · subst hk
        have hb : (l == k) = false := by simp [h]
        simp [insertEntry, List.lookup_cons, hb]
      · have hb : (k == k') = false := by simp [hk]
        simp only [insertEntry, hb, Bool.false_eq_true, if_false, List.lookup_cons]
        rw [ih]

end Table

end OpenQasm

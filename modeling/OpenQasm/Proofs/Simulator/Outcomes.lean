import OpenQasm.Outcome
import OpenQasm.Proofs.Number.Naturals
import OpenQasm.Proofs.Success
import OpenQasm.Proofs.Table
import OpenQasm.Proofs.Text.Cutting

/-!
# Outcomes are cut into the words they were made of

A shot has one word of bits for each declared register. Its outcome writes the words without
separators, that of the last declared register first. The cuts that `split` makes are positions in
binary floating point; they are exact for outcomes of fewer than 2^53 digits.
-/
namespace OpenQasm.Outcome

/-- One word for each declared register, in the order of declaration. -/
abbrev Shot := List (List Bool)

def digit (bit : Bool) : Char :=
  if bit then '1' else '0'

def text (shot : Shot) : String :=
  String.ofList (shot.reverse.flatten.map digit)

/-- The words of a shot have the lengths of the registers, and its outcome is not longer than
positions can be exact. -/
structure Fits (registers : List (String × Float)) (shot : Shot) : Prop where
  lengths : List.Forall₂ (fun register word => Number.value register.2 = (word.length : ℚ))
    registers shot
  bounded : (text shot).length < 2 ^ 53

def digitUnit (bit : Bool) : UInt16 :=
  if bit then 49 else 48

theorem units_digits (word : List Bool) :
    Text.units (word.map digit) = word.map digitUnit := by
  induction word with
  | nil => rfl
  | cons bit word ih =>
      rw [List.map_cons, List.map_cons, ← ih]
      cases bit <;> rfl

theorem bits_digitUnits (word : List Bool) : bits (word.map digitUnit) = word := by
  have hhigh (bit : Bool) : Text.isHighHalf (digitUnit bit) = false := by cases bit <;> rfl
  have hone (bit : Bool) : (digitUnit bit == oneUnit) = bit := by cases bit <;> rfl
  induction word with
  | nil => rfl
  | cons bit word ih =>
      cases word with
      | nil =>
          change [digitUnit bit == oneUnit] = [bit]
          rw [hone]
      | cons next word =>
          rw [List.map_cons, List.map_cons, bits, hhigh, hone]
          rw [List.map_cons] at ih
          simp [ih]

theorem isBlank_digit (bit : Bool) : Text.isBlank (digit bit) = false := by
  cases bit <;> decide

theorem length_text (shot : Shot) : (text shot).length = (shot.map List.length).sum := by
  unfold text
  rw [← String.length_toList, String.toList_ofList, List.length_map, List.length_flatten,
    List.map_reverse, List.sum_reverse]

theorem foldl_add_ofNat (lengths : List ℕ) (start : ℕ) (h : start + lengths.sum < 2 ^ 53) :
    (lengths.map Float.ofNat).foldl (fun sum length => sum + length) (Float.ofNat start) =
      Float.ofNat (start + lengths.sum) := by
  induction lengths generalizing start with
  | nil => rfl
  | cons n lengths ih =>
      rw [List.sum_cons] at h
      rw [List.map_cons, List.foldl_cons, Number.ofNat_add (by omega), ih _ (by omega),
        List.sum_cons, Nat.add_assoc]

theorem slice_append {α : Type} (before piece after : List α) :
    Text.slice (before ++ (piece ++ after)) before.length (before.length + piece.length) =
      piece := by
  have hclamp (n : ℕ) (h : n ≤ (before ++ (piece ++ after)).length) :
      Text.clampIndex (before ++ (piece ++ after)).length n = n := by
    unfold Text.clampIndex
    rw [if_neg (by omega), Int.toNat_natCast, min_eq_left h]
  unfold Text.slice
  have hstop := hclamp (before.length + piece.length) (by simp)
  rw [Nat.cast_add] at hstop
  rw [hclamp before.length (by simp), hstop]
  dsimp only
  rw [List.drop_left, Nat.add_sub_cancel_left, List.take_left]

/-- Pieces of an outcome after some position are the units of the words there. -/
theorem piecesFrom_words (entries : List (String × List Bool)) (before : List UInt16)
    (h : before.length + (entries.map (fun e => e.2.length)).sum < 2 ^ 53) :
    piecesFrom (before ++ (entries.map (fun e => e.2.map digitUnit)).flatten)
        (Float.ofNat before.length) (entries.map (fun e => (e.1, Float.ofNat e.2.length))) =
      entries.map (fun e => (e.1, e.2.map digitUnit)) := by
  induction entries generalizing before with
  | nil => rfl
  | cons e entries ih =>
      rw [List.map_cons, List.sum_cons] at h
      have hstop : Float.ofNat before.length + Float.ofNat e.2.length =
          Float.ofNat (before ++ e.2.map digitUnit).length := by
        rw [Number.ofNat_add (by omega), List.length_append, List.length_map]
      have hslice := slice_append before (e.2.map digitUnit)
        (entries.map (fun e => e.2.map digitUnit)).flatten
      have hrest := ih (before ++ e.2.map digitUnit)
        (by rw [List.length_append, List.length_map]; omega)
      rw [List.append_assoc] at hrest
      rw [List.map_cons, List.map_cons, List.map_cons, List.flatten_cons, piecesFrom, hstop, hrest,
        Number.truncate_ofNat (by omega),
        Number.truncate_ofNat (by rw [List.length_append, List.length_map]; omega),
        List.length_append, Nat.cast_add, hslice]

theorem Fits.eq_entries {registers : List (String × Float)} {shot : Shot}
    (h : Fits registers shot) (hpos : ∀ r ∈ registers, Number.isPositive r.2 = true) :
    registers =
        ((registers.map Prod.fst).zip shot).map (fun e => (e.1, Float.ofNat e.2.length)) ∧
      ((registers.map Prod.fst).zip shot).map Prod.snd = shot := by
  obtain ⟨hlengths, hbounded⟩ := h
  rw [length_text] at hbounded
  induction hlengths with
  | nil => exact ⟨rfl, rfl⟩
  | cons hr hrest ih =>
      rename_i register word registers shot
      rw [List.map_cons, List.sum_cons] at hbounded
      obtain ⟨hregisters, hshot⟩ :=
        ih (fun r hr => hpos r (List.mem_cons_of_mem _ hr)) (by omega)
      obtain ⟨hfin, n, hn, hvalue⟩ := Number.isPositive_iff.mp (hpos register List.mem_cons_self)
      have hword : word.length = n := by
        rw [hvalue] at hr
        exact_mod_cast hr.symm
      have hlength : register.2 = Float.ofNat word.length :=
        Number.eq_ofNat hfin hr (by omega) (by omega)
      rw [List.map_cons, List.zip_cons_cons, List.map_cons, List.map_cons, ← hregisters, hshot,
        ← hlength]
      exact ⟨rfl, rfl⟩

theorem total_eq {lengths : RegisterLengths} {entries : List (String × List Bool)}
    (h : lengths.toList = entries.map (fun e => (e.1, Float.ofNat e.2.length)))
    (hsum : (entries.map (fun e => e.2.length)).sum < 2 ^ 53) :
    lengths.total = Float.ofNat (entries.map (fun e => e.2.length)).sum := by
  have hfold := foldl_add_ofNat (entries.map (fun e => e.2.length)) 0 (by omega)
  rw [Nat.zero_add, List.map_map] at hfold
  unfold RegisterLengths.total Table.values
  rw [h, List.map_map]
  exact hfold

theorem pieces_joined {lengths : RegisterLengths} {entries : List (String × List Bool)}
    {outcome : List Char}
    (h : lengths.toList = entries.map (fun e => (e.1, Float.ofNat e.2.length)))
    (hsum : (entries.map (fun e => e.2.length)).sum < 2 ^ 53)
    (htrim : Text.trim outcome = (entries.map Prod.snd).reverse.flatten.map digit) :
    pieces outcome lengths = .ok (entries.map (fun e => (e.1, e.2.map digitUnit))) := by
  have hblank : ((entries.map Prod.snd).reverse.flatten.map digit).any Text.isBlank = false := by
    rw [List.any_map, List.any_eq_false]
    exact fun bit _ => by simp [isBlank_digit bit]
  have hunits : Text.units ((entries.map Prod.snd).reverse.flatten.map digit) =
      [] ++ (entries.reverse.map (fun e => e.2.map digitUnit)).flatten := by
    rw [units_digits, List.nil_append, List.map_flatten, ← List.map_reverse, List.map_map]
    rfl
  have hlength : (Text.units ((entries.map Prod.snd).reverse.flatten.map digit)).length =
      (entries.map (fun e => e.2.length)).sum := by
    rw [units_digits, List.length_map, List.length_flatten, List.map_reverse, List.sum_reverse,
      List.map_map]
    rfl
  have hpieces := piecesFrom_words entries.reverse [] (by simpa using hsum)
  unfold pieces
  rw [htrim]
  dsimp only
  rw [hblank, if_neg (by simp), hlength, total_eq h hsum,
    if_pos ((Number.ofNat_beq_ofNat hsum hsum).mpr rfl), hunits, h, ← List.map_reverse]
  exact (congrArg (fun found => Except.ok (List.reverse found)) hpieces).trans (by simp)

/-- A word as it is returned, from its last bit to its first if `reverse` is set. -/
def oriented (reverse : Bool) (word : List Bool) : List Bool :=
  if reverse then word.reverse else word

theorem split_of_pieces {outcome : String} {lengths : RegisterLengths}
    {entries : List (String × List Bool)}
    (h : pieces outcome.toList lengths =
      .ok (entries.map (fun e => (e.1, e.2.map digitUnit)))) (reverse : Bool) :
    split outcome lengths reverse = .ok (entries.map (fun e => (e.1, oriented reverse e.2))) := by
  unfold split
  rw [h]
  dsimp only
  rw [List.map_map]
  refine congrArg Except.ok (List.map_congr_left ?_)
  intro e _
  change (e.1, word reverse (e.2.map digitUnit)) = (e.1, oriented reverse e.2)
  rw [word, bits_digitUnits, oriented]

theorem get?_gather {lengths : RegisterLengths} {name : String} (h : name ∈ lengths.keys)
    (shots : List (List (String × List Bool))) :
    (gather lengths shots).get? name =
      some (shots.map (fun shot => (shot.lookup name).getD [])) := by
  unfold gather Table.get?
  dsimp only
  generalize lengths.keys = names at h
  induction names with
  | nil => cases h
  | cons other names ih =>
      rw [List.map_cons, List.lookup_cons]
      by_cases heq : name = other
      · subst heq
        rw [beq_self_eq_true]
      · rw [beq_false_of_ne heq]
        exact ih ((List.mem_cons.mp h).resolve_left heq)

/-- An entry of a histogram tells of a shot and how often it occurred. -/
def Counts (entry : String × Float) (group : Shot × ℕ) : Prop :=
  entry.1 = text group.1 ∧ Number.isNatural entry.2 = true ∧ Number.value entry.2 = (group.2 : ℚ)

end OpenQasm.Outcome

import OpenQasm.Proofs.Number.Growth
import OpenQasm.Proofs.Simulator.Spacing

/-!
# The ranges of registers and the words of an outcome

Ranges are laid out from the first declared register on, and an outcome is cut from the last
declared register on. The ranges follow each other without gap or overlap from zero to the sum of
the lengths, whatever rounding does to the sum, since a sum of natural numbers is never below its
summands. An outcome of digits as long as the sum is cut where the ranges say, counted from its
end.
-/
namespace OpenQasm.RegisterLengths

open Number (IsCount isNatural)

def covers (bit : Float) (range : String × Float × Float) : Bool :=
  range.2.1 ≤ bit && bit < range.2.2

def stopOf (start : Float) (registers : List (String × Float)) : Float :=
  (registers.map Prod.snd).foldl (fun sum length => sum + length) start

theorem rangesFrom_layout {start : Float} {registers : List (String × Float)}
    (hstart : IsCount start) (h : ∀ r ∈ registers, isNatural r.2 = true) :
    List.Forall₂ (fun range register => range.1 = register.1 ∧
        range.2.2 = range.2.1 + register.2 ∧ range.2.1 ≤ range.2.2)
      (rangesFrom start registers) registers := by
  induction registers generalizing start with
  | nil => exact .nil
  | cons register registers ih =>
      have hlength : IsCount register.2 := .inl (h register (.head _))
      exact .cons ⟨rfl, rfl, hstart.le_add hlength⟩
        (ih (hstart.add hlength) (fun r hr => h r (.tail _ hr)))

theorem head?_rangesFrom {start : Float} {registers : List (String × Float)}
    {range : String × Float × Float} (h : range ∈ (rangesFrom start registers).head?) :
    range.2.1 = start := by
  cases registers with
  | nil => cases h
  | cons register registers =>
      cases h
      rfl

theorem getLast?_rangesFrom {start : Float} {registers : List (String × Float)}
    {range : String × Float × Float} (h : range ∈ (rangesFrom start registers).getLast?) :
    range.2.2 = stopOf start registers := by
  induction registers generalizing start with
  | nil => cases h
  | cons register registers ih =>
      cases registers with
      | nil =>
          cases h
          rfl
      | cons next registers =>
          rw [rangesFrom, rangesFrom, List.getLast?_cons_cons] at h
          exact ih h

theorem isChain_rangesFrom (start : Float) (registers : List (String × Float)) :
    List.IsChain (fun range next => next.2.1 = range.2.2) (rangesFrom start registers) := by
  induction registers generalizing start with
  | nil => exact .nil
  | cons register registers ih =>
      refine List.isChain_cons.mpr ⟨?_, ih _⟩
      intro next hnext
      exact head?_rangesFrom hnext

/-- Between the first bit and the sum of the lengths every bit lies in one range, and no other bit
lies in any. -/
theorem countP_rangesFrom {start bit : Float} {registers : List (String × Float)}
    (hstart : IsCount start) (hbit : bit.isFinite = true)
    (h : ∀ r ∈ registers, isNatural r.2 = true) :
    (rangesFrom start registers).countP (covers bit) =
      if start ≤ bit ∧ bit < stopOf start registers then 1 else 0 := by
  induction registers generalizing start with
  | nil =>
      rw [if_neg]
      · rfl
      · rintro ⟨hle, hlt⟩
        exact (hstart.not_lt_iff hbit).mpr hle hlt
  | cons register registers ih =>
      have hlength : IsCount register.2 := .inl (h register (.head _))
      have hrest : ∀ r ∈ registers, isNatural r.2 = true := fun r hr => h r (.tail _ hr)
      have hmiddle := hstart.add hlength
      have hbelow : bit < start → bit < start + register.2 :=
        fun hlt => hstart.lt_of_lt_of_le hmiddle hbit hlt (hstart.le_add hlength)
      have habove : bit < start + register.2 → bit < stopOf start (register :: registers) := by
        refine hmiddle.lt_foldl_add hbit ?_
        intro length hmem
        obtain ⟨r, hr, rfl⟩ := List.mem_map.mp hmem
        exact hrest r hr
      rw [rangesFrom, List.countP_cons, ih hmiddle hrest]
      change _ + _ = _
      simp only [covers, Bool.and_eq_true, decide_eq_true_eq, ← hstart.not_lt_iff hbit,
        ← hmiddle.not_lt_iff hbit]
      change (if _ ∧ bit < stopOf start (register :: registers) then _ else _) + _ = _
      split_ifs <;> grind

end OpenQasm.RegisterLengths

namespace OpenQasm.Outcome

open RegisterLengths (rangesFrom covers)

/-- A register with a word of its length. -/
def Holds (register : String × Float) (entry : String × List Bool) : Prop :=
  register.1 = entry.1 ∧ register.2.isFinite = true ∧
    Number.value register.2 = (entry.2.length : ℚ)

/-- What a range has to do with a word: the word stands in the outcome between the ends of the
range, counted from the end of the outcome. -/
def Marks (outcome : List Char) (range : String × Float × Float) (entry : String × List Bool) :
    Prop :=
  ∃ start stop : ℕ, range = (entry.1, Float.ofNat start, Float.ofNat stop) ∧ start ≤ stop ∧
    stop ≤ outcome.length ∧
    entry.2.map digit = (outcome.drop (outcome.length - stop)).take (stop - start)

/-- The lengths of registers as natural numbers, zero among them. -/
def NaturalSizes (registers : List (String × Float)) (ns : List ℕ) : Prop :=
  List.Forall₂ (fun register n => register.2.isFinite = true ∧
    Number.value register.2 = ((n : ℕ) : ℚ)) registers ns

theorem exists_naturalSizes {registers : List (String × Float)}
    (h : ∀ r ∈ registers, Number.isNatural r.2 = true) : ∃ ns, NaturalSizes registers ns := by
  induction registers with
  | nil => exact ⟨[], .nil⟩
  | cons register registers ih =>
      obtain ⟨ns, hns⟩ := ih (fun r hr => h r (.tail _ hr))
      obtain ⟨hfin, n, hvalue⟩ := Number.isNatural_iff.mp (h register (.head _))
      exact ⟨n :: ns, .cons ⟨hfin, hvalue⟩ hns⟩

theorem NaturalSizes.stopOf {registers : List (String × Float)} {ns : List ℕ}
    (h : NaturalSizes registers ns) {start : Float} {m : ℕ} (hstart : Number.Sums start m) :
    Number.Sums (RegisterLengths.stopOf start registers) (m + ns.sum) := by
  induction h generalizing start m with
  | nil => exact hstart
  | cons hr hrest ih =>
      rw [List.sum_cons, ← Nat.add_assoc]
      exact ih (hstart.add_natural hr.1 hr.2)

theorem NaturalSizes.exists_holds {registers : List (String × Float)} {shot : Shot}
    (h : NaturalSizes registers (shot.map List.length)) :
    ∃ entries, List.Forall₂ Holds registers entries ∧ entries.map Prod.snd = shot := by
  unfold NaturalSizes at h
  rw [List.forall₂_map_right_iff] at h
  induction h with
  | nil => exact ⟨[], .nil, rfl⟩
  | cons hr hrest ih =>
      obtain ⟨entries, hentries, rfl⟩ := ih
      exact ⟨(_, _) :: entries, .cons ⟨rfl, hr⟩ hentries, rfl⟩

/-- Pieces are cut at the same positions whichever zero stands for an empty register. -/
theorem piecesFrom_congr {registers : List (String × Float)} {entries : List (String × List Bool)}
    (h : List.Forall₂ Holds registers entries) (us : List UInt16) {m : ℕ}
    (hsum : m + (entries.map (fun e => e.2.length)).sum < 2 ^ 53) :
    piecesFrom us (Float.ofNat m) registers =
      piecesFrom us (Float.ofNat m) (entries.map (fun e => (e.1, Float.ofNat e.2.length))) := by
  induction h generalizing m with
  | nil => rfl
  | cons hr hrest ih =>
      obtain ⟨hname, hfin, hvalue⟩ := hr
      rw [List.map_cons, List.sum_cons] at hsum
      rw [List.map_cons, piecesFrom, piecesFrom, Number.ofNat_add_of_value hfin hvalue (by omega),
        Number.ofNat_add (by omega), hname, ih (by omega)]

/-- The range of each register is where its word stands, with the words of the registers before it
at the end of the outcome. -/
theorem marks_rangesFrom {registers : List (String × Float)} {entries : List (String × List Bool)}
    (h : List.Forall₂ Holds registers entries) (before : List Char)
    (hsum : before.length + (entries.map (fun e => e.2.length)).sum < 2 ^ 53) :
    List.Forall₂ (Marks ((entries.map Prod.snd).reverse.flatten.map digit ++ before))
      (rangesFrom (Float.ofNat before.length) registers) entries := by
  induction h generalizing before with
  | nil => exact .nil
  | cons hr hrest ih =>
      rename_i register entry registers entries
      obtain ⟨hname, hfin, hvalue⟩ := hr
      rw [List.map_cons, List.sum_cons] at hsum
      have hstop : Float.ofNat before.length + register.2 =
          Float.ofNat (entry.2.map digit ++ before).length := by
        rw [Number.ofNat_add_of_value hfin hvalue (by omega), List.length_append, List.length_map,
          Nat.add_comm]
      have hsplit : ((entry :: entries).map Prod.snd).reverse.flatten.map digit ++ before =
          (entries.map Prod.snd).reverse.flatten.map digit ++ (entry.2.map digit ++ before) := by
        simp
      have hfront (front : List Char) : (front ++ (entry.2.map digit ++ before)).length -
          (entry.2.map digit ++ before).length = front.length := by
        rw [List.length_append, Nat.add_sub_cancel]
      have hlater := ih (entry.2.map digit ++ before)
        (by rw [List.length_append, List.length_map]; omega)
      rw [hsplit, rangesFrom, hstop, hname]
      refine .cons ⟨before.length, (entry.2.map digit ++ before).length, rfl, ?_, ?_, ?_⟩ hlater
      · simp
      · simp
      · rw [hfront, List.drop_left, List.length_append, Nat.add_sub_cancel, List.take_left]

theorem length_joined (entries : List (String × List Bool)) :
    ((entries.map Prod.snd).reverse.flatten.map digit).length =
      (entries.map (fun e => e.2.length)).sum := by
  rw [List.length_map, List.length_flatten, List.map_reverse, List.sum_reverse, List.map_map]
  rfl

theorem exists_entries {lengths : RegisterLengths} {outcome : List Char}
    (h : ∀ r ∈ lengths.toList, Number.isNatural r.2 = true)
    (hdigits : ∀ c ∈ outcome, c = '0' ∨ c = '1') (hlength : outcome.length < 2 ^ 53)
    (htotal : lengths.total = Float.ofNat outcome.length) :
    ∃ entries, List.Forall₂ Holds lengths.toList entries ∧
      outcome = (entries.map Prod.snd).reverse.flatten.map digit := by
  obtain ⟨bits, rfl⟩ := exists_digits hdigits
  obtain ⟨ns, hns⟩ := exists_naturalSizes h
  have hsums : Number.Sums lengths.total (0 + ns.sum) := hns.stopOf (.inl ⟨by norm_num, rfl⟩)
  have hsum : bits.length = ns.sum := by
    have hbeq : (Float.ofNat (bits.map digit).length == lengths.total) = true := by
      rw [htotal]
      exact Number.beq_self (Number.isFinite_ofNat hlength)
    rwa [hsums.beq_iff hlength, List.length_map, Nat.zero_add] at hbeq
  obtain ⟨shot, rfl, rfl⟩ := exists_shot hsum
  obtain ⟨entries, hentries, rfl⟩ := hns.exists_holds
  exact ⟨entries, hentries, rfl⟩

theorem pieces_of_holds {lengths : RegisterLengths} {entries : List (String × List Bool)}
    {outcome : List Char} (h : List.Forall₂ Holds lengths.toList entries)
    (houtcome : outcome = (entries.map Prod.snd).reverse.flatten.map digit)
    (hlength : outcome.length < 2 ^ 53) (htotal : lengths.total = Float.ofNat outcome.length) :
    pieces outcome lengths = .ok (entries.map (fun e => (e.1, e.2.map digitUnit))) := by
  have htrim : Text.trim outcome = outcome := by
    rw [houtcome]
    exact Text.trim_of_no_blanks solid_digits
  have hjoined : outcome.length = (entries.map (fun e => e.2.length)).sum := by
    rw [houtcome, length_joined]
  have hsum := hjoined ▸ hlength
  have hblank : ¬ outcome.any Text.isBlank = true := by
    rw [List.any_eq_true, houtcome]
    rintro ⟨c, hc, hblank⟩
    rw [solid_digits c hc] at hblank
    cases hblank
  have hexact : pieces outcome ⟨entries.map (fun e => (e.1, Float.ofNat e.2.length))⟩ =
      .ok (entries.map (fun e => (e.1, e.2.map digitUnit))) :=
    pieces_joined rfl hsum (htrim.trans houtcome)
  have hcut := piecesFrom_congr (List.forall₂_reverse_iff.mpr h) (Text.units outcome) (m := 0)
    (by simpa using hsum)
  rw [← hexact]
  unfold pieces
  dsimp only
  rw [htotal, total_eq rfl hsum, hjoined, htrim, if_neg hblank, if_neg hblank, ← List.map_reverse]
  change (if _ then Except.ok (piecesFrom _ (Float.ofNat 0) _).reverse else _) = _
  rw [hcut]
  rfl

/-- The ranges of registers of natural lengths follow each other in the order of declaration. Each
ends where its start and the length of its register sum up to, which is as far as the register is
long below `2 ^ 53`, where sums are exact. Every bit from zero up to the sum of the lengths lies in
exactly one range. An outcome of digits as long as the sum has the word of each register between
the ends of its range, counted from the end of the outcome. No text has `2 ^ 53` characters. -/
theorem ranges_mark_words (lengths : RegisterLengths)
    (h : ∀ r ∈ lengths.toList, Number.isNatural r.2 = true) :
    (List.Forall₂ (fun range register => range.1 = register.1 ∧
        range.2.2 = range.2.1 + register.2 ∧ range.2.1 ≤ range.2.2)
      lengths.ranges lengths.toList ∧
    (∀ range ∈ lengths.ranges.head?, range.2.1 = 0) ∧
    List.IsChain (fun range next => next.2.1 = range.2.2) lengths.ranges ∧
    (∀ range ∈ lengths.ranges.getLast?, range.2.2 = lengths.total) ∧
    ∀ bit : Float, bit.isFinite = true →
      lengths.ranges.countP (covers bit) = if 0 ≤ bit ∧ bit < lengths.total then 1 else 0) ∧
    ∀ (outcome : String) (reverse : Bool), (∀ c ∈ outcome.toList, c = '0' ∨ c = '1') →
      outcome.length < 2 ^ 53 → lengths.total = Float.ofNat outcome.length →
      ∃ entries, List.Forall₂ (Marks outcome.toList) lengths.ranges entries ∧
        split outcome lengths reverse =
          .ok (entries.map (fun e => (e.1, oriented reverse e.2))) := by
  have hzero : Number.IsCount 0 := Number.isCount_ofNat 0
  refine ⟨⟨RegisterLengths.rangesFrom_layout hzero h,
    fun _ => RegisterLengths.head?_rangesFrom, RegisterLengths.isChain_rangesFrom 0 lengths.toList,
    fun _ => RegisterLengths.getLast?_rangesFrom,
    fun _ hbit => RegisterLengths.countP_rangesFrom hzero hbit h⟩, ?_⟩
  intro outcome reverse hdigits hlength htotal
  rw [← String.length_toList] at hlength htotal
  obtain ⟨entries, hentries, houtcome⟩ := exists_entries h hdigits hlength htotal
  refine ⟨entries, ?_, ?_⟩
  · have hmarks := marks_rangesFrom hentries []
      (by rw [List.length_nil, Nat.zero_add, ← length_joined, ← houtcome]; exact hlength)
    rwa [List.append_nil, ← houtcome] at hmarks
  · exact split_of_pieces (pieces_of_holds hentries houtcome hlength htotal) reverse

/-- Three registers, the second of them empty. -/
theorem ranges_mark_words_emptyRegister :
    RegisterLengths.ranges ⟨[("a", 1), ("b", 0), ("c", 2)]⟩ =
        [("a", 0, 1), ("b", 1, 1), ("c", 1, 3)] ∧
      ∃ entries, List.Forall₂ (Marks ['1', '0', '1'])
          [("a", 0, 1), ("b", 1, 1), ("c", 1, 3)] entries ∧
        split "101" ⟨[("a", 1), ("b", 0), ("c", 2)]⟩ true =
          .ok (entries.map (fun e => (e.1, oriented true e.2))) := by
  have h := ranges_mark_words ⟨[("a", 1), ("b", 0), ("c", 2)]⟩ (by decide +kernel)
  have hranges : RegisterLengths.ranges ⟨[("a", 1), ("b", 0), ("c", 2)]⟩ =
      [("a", 0, 1), ("b", 1, 1), ("c", 1, 3)] := by decide +kernel
  refine ⟨hranges, ?_⟩
  rw [← hranges]
  exact h.2 "101" true (by simp) (by decide) (by decide +kernel)

end OpenQasm.Outcome

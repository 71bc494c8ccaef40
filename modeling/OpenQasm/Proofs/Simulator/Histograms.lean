import OpenQasm.Proofs.Simulator.Outcomes

/-!
# Histograms and the shots they stand for

A histogram is decoded entry by entry, a list of shots outcome by outcome. Both cut every outcome
once and gather the words by register, so a histogram gives the registers of its outcomes unrolled,
each repeated as often as it was counted. Outcomes that were never counted are cut as well, and only
they can make a difference: a histogram may be refused for one of them. The entries of a record are
those of a map in another order, which moves the shots of all registers alike.
-/
namespace OpenQasm

theorem mapM_replicate {ε α β : Type} {f : α → Except ε β} {a : α} {n : ℕ}
    (h : 0 < n ∨ ∃ b, f a = .ok b) :
    (List.replicate n a).mapM f = List.replicate n <$> f a := by
  cases ha : f a with
  | ok b =>
      refine mapM_eq_ok ?_
      induction n with
      | zero => exact .nil
      | succ n ih => exact .cons ha (ih (.inr ⟨b, ha⟩))
  | error e =>
      have hpos : 0 < n := h.resolve_right (fun ⟨b, hb⟩ => by rw [ha] at hb; cases hb)
      obtain ⟨m, rfl⟩ := Nat.exists_eq_succ_of_ne_zero hpos.ne'
      rw [List.replicate_succ, List.mapM_cons, ha]
      rfl

theorem exists_perm_of_perm {α : Type} {xs ys : List α} (h : ys.Perm xs) :
    ∃ σ : Equiv.Perm (Fin xs.length), ys = List.ofFn (fun k => xs.get (σ k)) := by
  have hnumbered : List.Forall₂ (fun x k => xs.get k = x) xs (List.finRange xs.length) := by
    rw [List.forall₂_iff_get]
    simp
  obtain ⟨order, hys, horder⟩ := List.perm_comp_forall₂ h hnumbered
  have hlength : order.length = xs.length := by
    rw [horder.length_eq, List.length_finRange]
  have hnodup : order.Nodup := horder.nodup_iff.mpr (List.nodup_finRange _)
  have hall : ∀ k, k ∈ order := fun k => horder.mem_iff.mpr (List.mem_finRange k)
  refine ⟨(finCongr hlength.symm).trans (hnodup.getEquivOfForallMemList order hall), ?_⟩
  obtain ⟨hsame, hget⟩ := List.forall₂_iff_get.mp hys
  refine List.ext_get (by simp [hsame, hlength]) ?_
  intro k hk hk'
  rw [List.get_ofFn]
  exact (hget k hk (by omega)).symm

namespace Outcome

open Number (isNatural value)

def times (entry : String × Float) : ℕ :=
  ⌊value entry.2⌋₊

/-- The outcomes of a histogram in the order of its entries, each as often as it was counted. -/
def unrolled (counts : Table String Float) : List String :=
  counts.toList.flatMap (fun entry => List.replicate (times entry) entry.1)

def shotCount (counts : Table String Float) : ℕ :=
  (counts.toList.map times).sum

theorem length_unrolled (counts : Table String Float) :
    (unrolled counts).length = shotCount counts := by
  unfold unrolled shotCount
  rw [List.length_flatMap]
  simp only [List.length_replicate]

theorem piecesFrom_names (us : List UInt16) (position : Float) (entries : List (String × Float)) :
    (piecesFrom us position entries).map Prod.fst = entries.map Prod.fst := by
  induction entries generalizing position with
  | nil => rfl
  | cons entry entries ih =>
      rw [piecesFrom, List.map_cons, List.map_cons, ih]

theorem matchGroups_names {entries : List (String × Float)} {groups : List (List Char)}
    {found : List (String × List UInt16)} (h : matchGroups entries groups = some found) :
    found.map Prod.fst = entries.map Prod.fst := by
  induction entries generalizing groups found with
  | nil =>
      cases groups with
      | nil =>
          cases h
          rfl
      | cons group groups => cases h
  | cons entry entries ih =>
      cases groups with
      | nil => cases h
      | cons group groups =>
          rw [matchGroups] at h
          split at h
          next =>
            obtain ⟨rest, hrest, rfl⟩ := Option.map_eq_some_iff.mp h
            rw [List.map_cons, List.map_cons, ih hrest]
          next => cases h

theorem split_names {outcome : String} {lengths : RegisterLengths} {reverse : Bool}
    {shot : List (String × List Bool)} (h : split outcome lengths reverse = .ok shot) :
    shot.map Prod.fst = lengths.keys := by
  unfold split at h
  split at h
  next found hfound =>
    cases h
    rw [List.map_map]
    change found.map Prod.fst = _
    unfold pieces at hfound
    dsimp only at hfound
    split at hfound
    next =>
      split at hfound
      next hmatch =>
        cases hfound
        exact matchGroups_names hmatch
      next => cases hfound
    next =>
      split at hfound
      next =>
        cases hfound
        rw [List.map_reverse, piecesFrom_names, List.map_reverse, List.reverse_reverse]
        rfl
      next => cases hfound
  next => cases h

theorem expand_eq (lengths : RegisterLengths) (reverse : Bool) {entry : String × Float}
    (h : isNatural entry.2 = true) :
    expand lengths reverse entry.1 entry.2 =
      List.replicate (times entry) <$> split entry.1 lengths reverse := by
  obtain ⟨hfinite, n, hn⟩ := Number.isNatural_iff.mp h
  have htimes : times entry = n := by
    unfold times
    rw [hn, Nat.floor_natCast]
  unfold expand
  rw [if_pos h, Number.truncate_of_value hfinite hn, Int.toNat_natCast, htimes]
  cases split entry.1 lengths reverse <;> rfl

/-- Decoding a histogram is decoding its outcomes one by one, as long as the outcomes that were
never counted can be cut. -/
theorem decodeCounts_eq {counts : Table String Float} {lengths : RegisterLengths} {reverse : Bool}
    (hnatural : ∀ entry ∈ counts.toList, isNatural entry.2 = true)
    (h : ∀ entry ∈ counts.toList,
      0 < times entry ∨ ∃ shot, split entry.1 lengths reverse = .ok shot) :
    decodeCounts counts lengths reverse = decodeShots (unrolled counts) lengths reverse := by
  have hshots : (unrolled counts).mapM (fun outcome => split outcome lengths reverse) =
      List.flatten <$> counts.toList.mapM
        (fun entry => expand lengths reverse entry.1 entry.2) := by
    unfold unrolled
    generalize counts.toList = entries at hnatural h ⊢
    induction entries with
    | nil => rfl
    | cons entry entries ih =>
        have hhead := mapM_replicate (f := fun outcome => split outcome lengths reverse)
          (h entry (.head _))
        have hrest := ih (fun e he => hnatural e (.tail _ he)) (fun e he => h e (.tail _ he))
        rw [List.flatMap_cons, List.mapM_append, hhead, hrest, List.mapM_cons,
          expand_eq lengths reverse (hnatural entry (.head _))]
        cases split entry.1 lengths reverse with
        | error e => rfl
        | ok shot =>
            cases entries.mapM (fun entry => expand lengths reverse entry.1 entry.2) <;> rfl
  unfold decodeShots
  rw [hshots]
  change counts.toList.mapM (fun entry => expand lengths reverse entry.1 entry.2) >>= _ = _
  cases counts.toList.mapM (fun entry => expand lengths reverse entry.1 entry.2) <;> rfl

theorem exists_decodeCounts_iff {counts : Table String Float} {lengths : RegisterLengths}
    {reverse : Bool} (hnatural : ∀ entry ∈ counts.toList, isNatural entry.2 = true) :
    (∃ registers, decodeCounts counts lengths reverse = .ok registers) ↔
      ∀ entry ∈ counts.toList, ∃ shot, split entry.1 lengths reverse = .ok shot := by
  have hexpand : (∀ entry ∈ counts.toList, ∃ shot, split entry.1 lengths reverse = .ok shot) ↔
      ∀ entry ∈ counts.toList, ∃ shots, expand lengths reverse entry.1 entry.2 = .ok shots := by
    refine forall₂_congr (fun entry hentry => ?_)
    rw [expand_eq lengths reverse (hnatural entry hentry)]
    cases split entry.1 lengths reverse with
    | error e => exact iff_of_false (by rintro ⟨_, ⟨⟩⟩) (by rintro ⟨_, ⟨⟩⟩)
    | ok shot => exact iff_of_true ⟨_, rfl⟩ ⟨_, rfl⟩
  rw [hexpand, ← exists_mapM_ok_iff]
  constructor
  · rintro ⟨registers, h⟩
    obtain ⟨shots, hshots, -⟩ := exists_of_bind_ok h
    exact ⟨shots, hshots⟩
  · rintro ⟨shots, hshots⟩
    refine ⟨gather lengths shots.flatten, ?_⟩
    change counts.toList.mapM (fun entry => expand lengths reverse entry.1 entry.2) >>= _ = _
    rw [hshots]
    rfl

/-- The shots behind decoded registers, one for each outcome. -/
theorem exists_shots {outcomes : List String} {lengths : RegisterLengths} {reverse : Bool}
    {registers : BitRegisters} (h : decodeShots outcomes lengths reverse = .ok registers) :
    ∃ shots, List.Forall₂ (fun outcome shot => split outcome lengths reverse = .ok shot)
      outcomes shots ∧ registers = gather lengths shots := by
  obtain ⟨shots, hshots, h⟩ := exists_of_bind_ok h
  cases h
  exact ⟨shots, forall₂_of_mapM hshots, rfl⟩

theorem decodeShots_of_decodeCounts {counts : Table String Float} {lengths : RegisterLengths}
    {reverse : Bool} {registers : BitRegisters}
    (hnatural : ∀ entry ∈ counts.toList, isNatural entry.2 = true)
    (h : decodeCounts counts lengths reverse = .ok registers) :
    decodeShots (unrolled counts) lengths reverse = .ok registers := by
  have hcut := (exists_decodeCounts_iff hnatural).mp ⟨registers, h⟩
  rw [← decodeCounts_eq hnatural (fun entry hentry => .inr (hcut entry hentry)), h]

/-- Every register has one word for each outcome, and the words in one place of all registers come
from the outcome in that place. -/
structure Aligned (outcomes : List String) (lengths : RegisterLengths) (reverse : Bool)
    (registers : BitRegisters) : Prop where
  names : registers.keys = lengths.keys
  words : ∀ name ∈ lengths.keys, ∃ words, registers.get? name = some words ∧
    List.Forall₂ (fun outcome word => ∃ shot, split outcome lengths reverse = .ok shot ∧
      shot.lookup name = some word) outcomes words

theorem aligned_of_decodeShots {outcomes : List String} {lengths : RegisterLengths}
    {reverse : Bool} {registers : BitRegisters}
    (h : decodeShots outcomes lengths reverse = .ok registers) :
    Aligned outcomes lengths reverse registers := by
  obtain ⟨shots, hshots, rfl⟩ := exists_shots h
  constructor
  · unfold gather Table.keys
    rw [List.map_map]
    exact List.map_id _
  · intro name hname
    refine ⟨_, get?_gather hname shots, ?_⟩
    rw [List.forall₂_map_right_iff]
    refine hshots.imp (fun outcome shot hshot => ⟨shot, hshot, ?_⟩)
    rw [← split_names hshot] at hname
    obtain ⟨word, hword⟩ := Table.mem_keys_iff (t := ⟨shot⟩).mp hname
    change shot.lookup name = some word at hword
    rw [hword]
    rfl

/-- A histogram and its unrolled outcomes are decoded alike. -/
structure Agrees (counts : Table String Float) (lengths : RegisterLengths) (reverse : Bool) :
    Prop where
  shots : ∀ registers, decodeCounts counts lengths reverse = .ok registers →
    decodeShots (unrolled counts) lengths reverse = .ok registers
  failures : (∀ entry ∈ counts.toList, 0 < value entry.2) →
    decodeCounts counts lengths reverse = decodeShots (unrolled counts) lengths reverse
  totals : ∀ registers, decodeCounts counts lengths reverse = .ok registers →
    ∀ name ∈ lengths.keys, ∃ words, registers.get? name = some words ∧
      words.length = shotCount counts
  aligned : ∀ registers, decodeCounts counts lengths reverse = .ok registers →
    Aligned (unrolled counts) lengths reverse registers

theorem agrees_of_isNatural {counts : Table String Float}
    (h : ∀ entry ∈ counts.toList, isNatural entry.2 = true) (lengths : RegisterLengths)
    (reverse : Bool) : Agrees counts lengths reverse where
  shots registers hregisters := decodeShots_of_decodeCounts h hregisters
  failures hpos := by
    refine decodeCounts_eq h (fun entry hentry => .inl ?_)
    obtain ⟨-, n, hn⟩ := Number.isNatural_iff.mp (h entry hentry)
    have hvalue := hpos entry hentry
    unfold times
    rw [hn] at hvalue ⊢
    rw [Nat.floor_natCast]
    exact_mod_cast hvalue
  totals registers hregisters name hname := by
    have haligned := aligned_of_decodeShots (decodeShots_of_decodeCounts h hregisters)
    obtain ⟨words, hwords, hshots⟩ := haligned.words name hname
    exact ⟨words, hwords, by rw [← hshots.length_eq, length_unrolled]⟩
  aligned registers hregisters :=
    aligned_of_decodeShots (decodeShots_of_decodeCounts h hregisters)

/-- Registers with the same shots in another order, which is the same for all registers. -/
def Rearranged (lengths : RegisterLengths) (n : ℕ) (registers registers' : BitRegisters) : Prop :=
  ∃ σ : Equiv.Perm (Fin n), ∀ name ∈ lengths.keys, ∃ words : Fin n → List Bool,
    registers.get? name = some (List.ofFn words) ∧
      registers'.get? name = some (List.ofFn (words ∘ σ))

theorem rearranged_of_perm {outcomes outcomes' : List String} (hperm : outcomes'.Perm outcomes)
    {lengths : RegisterLengths} {reverse : Bool} {registers registers' : BitRegisters}
    (h : decodeShots outcomes lengths reverse = .ok registers)
    (h' : decodeShots outcomes' lengths reverse = .ok registers') :
    Rearranged lengths outcomes.length registers registers' := by
  obtain ⟨shots, hshots, rfl⟩ := exists_shots h
  obtain ⟨shots', hshots', rfl⟩ := exists_shots h'
  -- the shots are moved as the outcomes are, because an outcome has only one shot
  obtain ⟨moved, hmoved, hshotsPerm⟩ := List.perm_comp_forall₂ hperm hshots
  have hsame : moved = shots' :=
    Except.ok.inj ((mapM_eq_ok hmoved).symm.trans (mapM_eq_ok hshots'))
  subst hsame
  obtain ⟨σ, hσ⟩ := exists_perm_of_perm hshotsPerm
  rw [hshots.length_eq]
  refine ⟨σ, fun name hname => ⟨fun k => ((shots.get k).lookup name).getD [], ?_, ?_⟩⟩
  · change _ = some (List.ofFn ((fun shot => (shot.lookup name).getD []) ∘ shots.get))
    rw [get?_gather hname, ← List.map_ofFn, List.ofFn_get]
  · rw [get?_gather hname, hσ, List.map_ofFn]
    rfl

/-- The two ways in which a histogram is given. A map keeps the order of its entries, and a record
lists outcomes that spell an index first. -/
inductive Form where
  | map
  | record
  deriving DecidableEq, Repr

def Form.table (form : Form) (entries : List (String × Float)) : Table String Float :=
  match form with
  | map => .ofList entries
  | record => (Table.ofList entries).indexFirst

theorem Form.isNatural {entries : List (String × Float)}
    (h : ∀ entry ∈ entries, Number.isNatural entry.2 = true) (form : Form) :
    ∀ entry ∈ (form.table entries).toList, Number.isNatural entry.2 = true := by
  intro entry hentry
  cases form with
  | map => exact h entry (Table.mem_ofList hentry)
  | record => exact h entry (Table.mem_ofList ((Table.indexFirst_perm _).mem_iff.mp hentry))

/-- Histograms with natural counts, given as a map or as a record. What is decoded are the unrolled
outcomes; if every outcome was counted, this includes the error. Every register has as many words as
there are shots, and words in the same place come from the same outcome. A map and a record of the
same entries are decoded in the same cases, and the shots of one are those of the other rearranged,
in the same way for all registers. -/
theorem decodeCounts_agrees {entries : List (String × Float)}
    (h : ∀ entry ∈ entries, isNatural entry.2 = true) (lengths : RegisterLengths)
    (reverse : Bool) :
    (∀ form : Form, Agrees (form.table entries) lengths reverse) ∧
    ((∃ registers, decodeCounts (Form.map.table entries) lengths reverse = .ok registers) ↔
      ∃ registers, decodeCounts (Form.record.table entries) lengths reverse = .ok registers) ∧
    ∀ registers registers',
      decodeCounts (Form.map.table entries) lengths reverse = .ok registers →
      decodeCounts (Form.record.table entries) lengths reverse = .ok registers' →
      Rearranged lengths (shotCount (Form.map.table entries)) registers registers' := by
  have hperm : (Form.record.table entries).toList.Perm (Form.map.table entries).toList :=
    Table.indexFirst_perm _
  have hnatural := Form.isNatural h
  refine ⟨fun form => agrees_of_isNatural (hnatural form) lengths reverse, ?_, ?_⟩
  · rw [exists_decodeCounts_iff (hnatural .map), exists_decodeCounts_iff (hnatural .record)]
    exact forall_congr' (fun entry => imp_congr_left hperm.mem_iff.symm)
  · intro registers registers' hmap hrecord
    rw [← length_unrolled]
    exact rearranged_of_perm (hperm.flatMap_right _)
      (decodeShots_of_decodeCounts (hnatural .map) hmap)
      (decodeShots_of_decodeCounts (hnatural .record) hrecord)

/-- Three outcomes of two bits, the last of them never counted. -/
def threeOutcomes : List (String × Float) :=
  [("11", 1), ("10", 2), ("01", 0)]

def twoBits : RegisterLengths :=
  .ofList [("a", 1), ("b", 1)]

/-- The record lists the second outcome before the first. -/
theorem decodeCounts_agrees_threeOutcomes :
    (∀ entry ∈ threeOutcomes, isNatural entry.2 = true) ∧
    decodeCounts (Form.map.table threeOutcomes) twoBits false =
      .ok ⟨[("a", [[true], [false], [false]]), ("b", [[true], [true], [true]])]⟩ ∧
    decodeCounts (Form.record.table threeOutcomes) twoBits false =
      .ok ⟨[("a", [[false], [false], [true]]), ("b", [[true], [true], [true]])]⟩ ∧
    decodeShots (unrolled (Form.map.table threeOutcomes)) twoBits false =
      .ok ⟨[("a", [[true], [false], [false]]), ("b", [[true], [true], [true]])]⟩ ∧
    Rearranged twoBits (shotCount (Form.map.table threeOutcomes))
      ⟨[("a", [[true], [false], [false]]), ("b", [[true], [true], [true]])]⟩
      ⟨[("a", [[false], [false], [true]]), ("b", [[true], [true], [true]])]⟩ := by
  have hnatural : ∀ entry ∈ threeOutcomes, isNatural entry.2 = true := by decide +kernel
  have hmap : decodeCounts (Form.map.table threeOutcomes) twoBits false =
      .ok ⟨[("a", [[true], [false], [false]]), ("b", [[true], [true], [true]])]⟩ := by
    decide +kernel
  have htable : Form.record.table threeOutcomes = ⟨[("10", 2), ("11", 1), ("01", 0)]⟩ := by
    have hindexed : (Table.ofList threeOutcomes).toList.filterMap
        (fun e => (Table.index? e.1).map (fun n => (n, e))) =
        [(11, ("11", 1)), (10, ("10", 2))] := by decide +kernel
    have hothers : (Table.ofList threeOutcomes).toList.filter
        (fun e => (Table.index? e.1).isNone) = [("01", 0)] := by decide +kernel
    unfold Form.table Table.indexFirst
    dsimp only
    rw [hindexed, hothers]
    simp [List.mergeSort]
  have hrecord : decodeCounts (Form.record.table threeOutcomes) twoBits false =
      .ok ⟨[("a", [[false], [false], [true]]), ("b", [[true], [true], [true]])]⟩ := by
    rw [htable]
    decide +kernel
  obtain ⟨hagrees, -, hrearranged⟩ := decodeCounts_agrees hnatural twoBits false
  exact ⟨hnatural, hmap, hrecord, (hagrees .map).shots _ hmap, hrearranged _ _ hmap hrecord⟩

end Outcome

end OpenQasm

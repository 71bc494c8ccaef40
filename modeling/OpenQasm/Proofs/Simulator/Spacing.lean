import OpenQasm.Proofs.Number.Range
import OpenQasm.Proofs.Simulator.Outcomes
import OpenQasm.Proofs.Text.Groups

/-!
# Outcomes with and without separators

A text shows a shot if it has the words of the registers, the last declared first, run together or
with blanks between them, and any blanks around. `split` reads every such text, and of all texts of
digits and blanks it reads no other. What it reports for the others is the number of their digits
beside the sum of the lengths. The sum is taken in binary floating point: below 2^53 it is exact,
and from there on it is the length of no text.
-/
namespace OpenQasm.Outcome

/-- A word for each register, as long as the register. -/
def Matches (registers : List (String × Float)) (shot : Shot) : Prop :=
  List.Forall₂ (fun register word => Number.value register.2 = (word.length : ℚ)) registers shot

/-- The texts that show a shot. One word alone is both joined and spaced. -/
inductive Shows (shot : Shot) : List Char → Prop
  | joined {lead trail : List Char} (hlead : ∀ c ∈ lead, Text.isBlank c = true)
      (htrail : ∀ c ∈ trail, Text.isBlank c = true) :
      Shows shot (lead ++ (shot.reverse.flatten.map digit ++ trail))
  | spaced {lead body trail : List Char} (hlead : ∀ c ∈ lead, Text.isBlank c = true)
      (htrail : ∀ c ∈ trail, Text.isBlank c = true)
      (h : Text.Spaced (shot.reverse.map (List.map digit)) body) :
      Shows shot (lead ++ (body ++ trail))

theorem solid_digits {word : List Bool} : ∀ c ∈ word.map digit, Text.isBlank c = false := by
  intro c hc
  obtain ⟨bit, -, rfl⟩ := List.mem_map.mp hc
  exact isBlank_digit bit

theorem removeBlanks_digits (word : List Bool) :
    Text.removeBlanks (word.map digit) = word.map digit := by
  refine List.filter_eq_self.mpr ?_
  intro c hc
  rw [solid_digits c hc]
  rfl

theorem exists_digits {s : List Char} (h : ∀ c ∈ s, c = '0' ∨ c = '1') :
    ∃ word : List Bool, s = word.map digit := by
  induction s with
  | nil => exact ⟨[], rfl⟩
  | cons c s ih =>
      obtain ⟨word, rfl⟩ := ih (fun d hd => h d (.tail _ hd))
      rcases h c (.head _) with rfl | rfl
      · exact ⟨false :: word, rfl⟩
      · exact ⟨true :: word, rfl⟩

theorem exists_words {groups : List (List Char)} (h : ∀ c ∈ groups.flatten, c = '0' ∨ c = '1') :
    ∃ words : List (List Bool), groups = words.map (List.map digit) := by
  induction groups with
  | nil => exact ⟨[], rfl⟩
  | cons g groups ih =>
      obtain ⟨words, rfl⟩ := ih (fun c hc => h c (List.mem_append_right _ hc))
      obtain ⟨word, rfl⟩ := exists_digits (fun c hc => h c (List.mem_append_left _ hc))
      exact ⟨word :: words, rfl⟩

theorem unitLength_digits (word : List Bool) : Text.unitLength (word.map digit) = word.length := by
  rw [Text.unitLength, units_digits, List.length_map]

theorem removeBlanks_spaced {words : List (List Bool)} {s : List Char}
    (h : Text.Spaced (words.map (List.map digit)) s) :
    Text.removeBlanks s = words.flatten.map digit := by
  generalize hgs : words.map (List.map digit) = gs at h
  induction h generalizing words with
  | last g =>
      obtain ⟨word, rest, rfl, rfl, hrest⟩ := List.map_eq_cons_iff.mp hgs
      rw [List.map_eq_nil_iff.mp hrest, removeBlanks_digits]
      simp
  | more g hne hgap h ih =>
      obtain ⟨word, rest, rfl, rfl, hrest⟩ := List.map_eq_cons_iff.mp hgs
      rw [Text.removeBlanks_append, Text.removeBlanks_append, removeBlanks_digits,
        Text.removeBlanks_of_blanks hgap, ih hrest, List.nil_append, List.flatten_cons,
        List.map_append]

theorem Shows.removeBlanks_eq {shot : Shot} {outcome : List Char} (h : Shows shot outcome) :
    Text.removeBlanks outcome = shot.reverse.flatten.map digit := by
  cases h with
  | joined hlead htrail =>
      rw [Text.removeBlanks_append, Text.removeBlanks_append, Text.removeBlanks_of_blanks hlead,
        Text.removeBlanks_of_blanks htrail, removeBlanks_digits, List.nil_append, List.append_nil]
  | spaced hlead htrail h =>
      rw [Text.removeBlanks_append, Text.removeBlanks_append, Text.removeBlanks_of_blanks hlead,
        Text.removeBlanks_of_blanks htrail, removeBlanks_spaced h, List.nil_append,
        List.append_nil]

/-- If there are blanks inside the text, then they are those between the words. -/
theorem Shows.groups_eq {shot : Shot} {outcome : List Char} (h : Shows shot outcome)
    (hne : ∀ word ∈ shot, word ≠ []) (hblank : (Text.trim outcome).any Text.isBlank = true) :
    Text.blankGroups (Text.trim outcome) = shot.reverse.map (List.map digit) := by
  cases h with
  | joined hlead htrail =>
      rw [Text.trim_surround hlead htrail
        (fun c hc => solid_digits c (List.mem_of_mem_head? hc))
        (fun c hc => solid_digits c (List.mem_of_mem_getLast? hc)), List.any_eq_true] at hblank
      obtain ⟨c, hc, hblank⟩ := hblank
      exact absurd hblank (by simp [solid_digits c hc])
  | spaced hlead htrail h =>
      have hwords : ∀ g ∈ shot.reverse.map (List.map digit), Text.IsWord g := by
        intro g hg
        obtain ⟨word, hword, rfl⟩ := List.mem_map.mp hg
        exact ⟨by simpa using hne word (List.mem_reverse.mp hword), solid_digits⟩
      obtain ⟨-, hhead, hlast⟩ := h.ends hwords
      rw [Text.trim_surround hlead htrail hhead hlast, h.blankGroups_eq hwords]

theorem matchGroups_words {entries : List (String × List Bool)}
    (h : (entries.map (fun e => e.2.length)).sum < 2 ^ 53) :
    matchGroups (entries.map (fun e => (e.1, Float.ofNat e.2.length)))
        (entries.map (fun e => e.2.map digit)) =
      some (entries.map (fun e => (e.1, e.2.map digitUnit))) := by
  induction entries with
  | nil => rfl
  | cons e entries ih =>
      rw [List.map_cons, List.sum_cons] at h
      rw [List.map_cons, List.map_cons, List.map_cons, matchGroups, unitLength_digits,
        if_pos ((Number.ofNat_beq_ofNat (by omega) (by omega)).mpr rfl), ih (by omega),
        units_digits]
      rfl

theorem pieces_of_shows {lengths : RegisterLengths} {entries : List (String × List Bool)}
    {outcome : List Char}
    (h : lengths.toList = entries.map (fun e => (e.1, Float.ofNat e.2.length)))
    (hne : ∀ word ∈ entries.map Prod.snd, word ≠ [])
    (hsum : (entries.map (fun e => e.2.length)).sum < 2 ^ 53)
    (hshows : Shows (entries.map Prod.snd) outcome) :
    pieces outcome lengths = .ok (entries.map (fun e => (e.1, e.2.map digitUnit))) := by
  by_cases hblank : (Text.trim outcome).any Text.isBlank = true
  · have hgroups : (Text.blankGroups (Text.trim outcome)).reverse =
        entries.map (fun e => e.2.map digit) := by
      rw [hshows.groups_eq hne hblank, ← List.map_reverse, List.reverse_reverse, List.map_map]
      rfl
    unfold pieces
    dsimp only
    rw [if_pos hblank, h, hgroups, matchGroups_words hsum]
  · refine pieces_joined h hsum ?_
    rw [← hshows.removeBlanks_eq, ← Text.removeBlanks_trim]
    refine (List.filter_eq_self.mpr ?_).symm
    simpa using hblank

/-- A text below 2^53 characters that shows a shot fits the registers that the shot matches. -/
theorem Shows.fits {registers : List (String × Float)} {shot : Shot} {outcome : List Char}
    (h : Shows shot outcome) (hmatches : Matches registers shot)
    (hlength : outcome.length < 2 ^ 53) : Fits registers shot := by
  refine ⟨hmatches, ?_⟩
  have hle : (Text.removeBlanks outcome).length ≤ outcome.length := List.length_filter_le _ _
  rw [h.removeBlanks_eq] at hle
  unfold text
  rw [← String.length_toList, String.toList_ofList]
  omega

theorem Matches.ne_nil {registers : List (String × Float)} {shot : Shot}
    (h : Matches registers shot) (hpos : ∀ r ∈ registers, Number.isPositive r.2 = true) :
    ∀ word ∈ shot, word ≠ [] := by
  induction h with
  | nil => intro word hword; cases hword
  | cons hr hrest ih =>
      rename_i register first registers shot
      intro word hword
      rcases List.mem_cons.mp hword with rfl | hword
      · obtain ⟨-, n, hn, hvalue⟩ := Number.isPositive_iff.mp (hpos register (.head _))
        rintro rfl
        rw [hvalue, List.length_nil, Nat.cast_inj] at hr
        omega
      · exact ih (fun r hr => hpos r (.tail _ hr)) word hword

/-- Every text that shows a shot is cut into the words of the shot. -/
theorem split_of_shows {lengths : RegisterLengths} {shot : Shot} {outcome : String}
    (hpos : ∀ r ∈ lengths.toList, Number.isPositive r.2 = true)
    (hlength : outcome.length < 2 ^ 53) (hmatches : Matches lengths.toList shot)
    (h : Shows shot outcome.toList) (reverse : Bool) :
    split outcome lengths reverse = .ok (lengths.keys.zip (shot.map (oriented reverse))) := by
  have hfits := h.fits hmatches (by rwa [String.length_toList])
  have hne := hmatches.ne_nil hpos
  have hbounded := hfits.bounded
  rw [length_text] at hbounded
  obtain ⟨hentries, hshot⟩ := hfits.eq_entries hpos
  change lengths.toList = (lengths.keys.zip shot).map _ at hentries
  change (lengths.keys.zip shot).map Prod.snd = shot at hshot
  rw [List.zip_map_right]
  generalize lengths.keys.zip shot = entries at hentries hshot
  subst hshot
  rw [List.map_map] at hbounded
  exact split_of_pieces (pieces_of_shows hentries hne hbounded h) reverse

/-- The lengths of registers as natural numbers. -/
def Sizes (registers : List (String × Float)) (ns : List ℕ) : Prop :=
  List.Forall₂ (fun register n => register.2.isFinite = true ∧ 0 < n ∧
    Number.value register.2 = ((n : ℕ) : ℚ)) registers ns

theorem exists_sizes {registers : List (String × Float)}
    (hpos : ∀ r ∈ registers, Number.isPositive r.2 = true) : ∃ ns, Sizes registers ns := by
  induction registers with
  | nil => exact ⟨[], .nil⟩
  | cons register registers ih =>
      obtain ⟨ns, hns⟩ := ih (fun r hr => hpos r (.tail _ hr))
      obtain ⟨hfin, n, hn, hvalue⟩ := Number.isPositive_iff.mp (hpos register (.head _))
      exact ⟨n :: ns, .cons ⟨hfin, hn, hvalue⟩ hns⟩

theorem Sizes.foldl {registers : List (String × Float)} {ns : List ℕ} (h : Sizes registers ns)
    {start : Float} {m : ℕ} (hstart : Number.Sums start m) :
    Number.Sums ((registers.map Prod.snd).foldl (fun sum length => sum + length) start)
      (m + ns.sum) := by
  induction h generalizing start m with
  | nil => exact hstart
  | cons hr hrest ih =>
      obtain ⟨hfin, hn, hvalue⟩ := hr
      rw [List.map_cons, List.foldl_cons, List.sum_cons, ← Nat.add_assoc]
      exact ih (hstart.add hfin hvalue hn)

theorem Sizes.total {lengths : RegisterLengths} {ns : List ℕ} (h : Sizes lengths.toList ns) :
    Number.Sums lengths.total ns.sum := by
  have hfold := h.foldl (.inl ⟨by norm_num, rfl⟩ : Number.Sums 0 0)
  rwa [Nat.zero_add] at hfold

theorem Sizes.sum_value {registers : List (String × Float)} {ns : List ℕ}
    (h : Sizes registers ns) :
    (registers.map (fun r => Number.value r.2)).sum = (ns.sum : ℚ) := by
  induction h with
  | nil => rfl
  | cons hr hrest ih => rw [List.map_cons, List.sum_cons, List.sum_cons, ih, hr.2.2, Nat.cast_add]

theorem Sizes.matches {registers : List (String × Float)} {shot : Shot}
    (h : Sizes registers (shot.map List.length)) : Matches registers shot := by
  unfold Sizes at h
  rw [List.forall₂_map_right_iff] at h
  exact h.imp (fun _ _ hr => hr.2.2)

theorem matches_of_matchGroups {registers : List (String × Float)} {words : List (List Bool)}
    {found : List (String × List UInt16)}
    (hpos : ∀ r ∈ registers, Number.isPositive r.2 = true)
    (hlength : ∀ word ∈ words, word.length < 2 ^ 53)
    (h : matchGroups registers (words.map (List.map digit)) = some found) :
    Matches registers words := by
  induction registers generalizing words found with
  | nil =>
      cases words with
      | nil => exact .nil
      | cons word words => cases h
  | cons register registers ih =>
      cases words with
      | nil => cases h
      | cons word words =>
          have hword := hlength word (.head _)
          obtain ⟨hfin, -⟩ := Number.isPositive_iff.mp (hpos register (.head _))
          rw [List.map_cons, matchGroups, unitLength_digits] at h
          split at h
          · rename_i hbeq
            obtain ⟨rest, hrest, -⟩ := Option.map_eq_some_iff.mp h
            rw [Number.beq_iff_value (Number.isFinite_ofNat hword) hfin,
              Number.value_ofNat hword] at hbeq
            exact .cons hbeq.symm (ih (fun r hr => hpos r (.tail _ hr))
              (fun w hw => hlength w (.tail _ hw)) hrest)
          · cases h

theorem foldl_unitLength (words : List (List Bool)) (n : ℕ) :
    (words.map (List.map digit)).foldl (fun n group => n + Text.unitLength group) n =
      n + words.flatten.length := by
  induction words generalizing n with
  | nil => rfl
  | cons word words ih =>
      rw [List.map_cons, List.foldl_cons, ih, unitLength_digits, List.flatten_cons,
        List.length_append, Nat.add_assoc]

theorem exists_shot {ns : List ℕ} {bits : List Bool} (h : bits.length = ns.sum) :
    ∃ shot : Shot, shot.map List.length = ns ∧ shot.reverse.flatten = bits := by
  have hsum : ns.reverse.sum = bits.length := by rw [List.sum_reverse, h]
  refine ⟨(ns.reverse.splitLengths bits).reverse, ?_, ?_⟩
  · rw [List.map_reverse, List.map_splitLengths_length _ _ hsum.le, List.reverse_reverse]
  · rw [List.reverse_reverse, List.flatten_splitLengths _ _ hsum.ge]

section Cutting

variable {lengths : RegisterLengths} {outcome : List Char}

theorem spaced_or_error (hpos : ∀ r ∈ lengths.toList, Number.isPositive r.2 = true)
    (hlength : outcome.length < 2 ^ 53)
    (hsolid : ∀ c ∈ Text.removeBlanks outcome, c = '0' ∨ c = '1')
    (hblank : (Text.trim outcome).any Text.isBlank = true) :
    (∃ shot, Matches lengths.toList shot ∧ Shows shot outcome) ∨
      pieces outcome lengths = .error (Float.ofNat (Text.removeBlanks outcome).length) := by
  obtain ⟨lead, trail, hlead, htrail, houtcome⟩ := Text.exists_trim outcome
  obtain ⟨hhead, hlast⟩ := Text.trim_ends outcome
  have hne : Text.trim outcome ≠ [] := by
    intro hnil
    rw [hnil] at hblank
    cases hblank
  have hspaced := (Text.spaced_blankGroups hne hhead hlast).2
  have hflatten := Text.flatten_blankGroups (Text.trim outcome)
  rw [Text.removeBlanks_trim] at hflatten
  obtain ⟨words, hwords⟩ := exists_words (hflatten.symm ▸ hsolid)
  rw [hwords] at hspaced hflatten
  rw [← List.map_flatten] at hflatten
  unfold pieces
  dsimp only
  rw [if_pos hblank, hwords, ← List.map_reverse, foldl_unitLength, Nat.zero_add, ← hflatten,
    List.length_map]
  cases hfound : matchGroups lengths.toList (words.reverse.map (List.map digit)) with
  | some found =>
      have hle : (Text.removeBlanks outcome).length ≤ outcome.length := List.length_filter_le _ _
      have hbound : ∀ word ∈ words.reverse, word.length < 2 ^ 53 := by
        intro word hword
        have hsub := (List.sublist_flatten_of_mem (List.mem_reverse.mp hword)).length_le
        rw [← hflatten, List.length_map] at hle
        omega
      refine .inl ⟨words.reverse, matches_of_matchGroups hpos hbound hfound, ?_⟩
      rw [houtcome]
      exact .spaced hlead htrail (by rwa [List.reverse_reverse])
  | none => exact .inr rfl

theorem joined_or_error (hpos : ∀ r ∈ lengths.toList, Number.isPositive r.2 = true)
    (hlength : outcome.length < 2 ^ 53)
    (hsolid : ∀ c ∈ Text.removeBlanks outcome, c = '0' ∨ c = '1')
    (hblank : ¬(Text.trim outcome).any Text.isBlank = true) :
    (∃ shot, Matches lengths.toList shot ∧ Shows shot outcome) ∨
      pieces outcome lengths = .error (Float.ofNat (Text.removeBlanks outcome).length) := by
  obtain ⟨lead, trail, hlead, htrail, houtcome⟩ := Text.exists_trim outcome
  have htrim : Text.trim outcome = Text.removeBlanks outcome := by
    rw [← Text.removeBlanks_trim]
    exact (List.filter_eq_self.mpr (by simpa using hblank)).symm
  have hle : (Text.removeBlanks outcome).length ≤ outcome.length := List.length_filter_le _ _
  obtain ⟨bits, hbits⟩ := exists_digits hsolid
  obtain ⟨ns, hns⟩ := exists_sizes hpos
  rw [hbits, List.length_map] at hle
  unfold pieces
  dsimp only
  rw [if_neg hblank, htrim, hbits, units_digits, List.length_map, List.length_map]
  split
  next hbeq =>
    rw [hns.total.beq_iff (by omega)] at hbeq
    obtain ⟨shot, rfl, hshot⟩ := exists_shot hbeq
    refine .inl ⟨shot, hns.matches, ?_⟩
    rw [houtcome, htrim, hbits, ← hshot]
    exact .joined hlead htrail
  next => exact .inr rfl

/-- A text of digits and blanks shows a shot that matches the registers, or its digits are
counted. -/
theorem shows_or_error (hpos : ∀ r ∈ lengths.toList, Number.isPositive r.2 = true)
    (hlength : outcome.length < 2 ^ 53)
    (hdigits : ∀ c ∈ outcome, c = '0' ∨ c = '1' ∨ Text.isBlank c = true) :
    (∃ shot, Matches lengths.toList shot ∧ Shows shot outcome) ∨
      pieces outcome lengths = .error (Float.ofNat (Text.removeBlanks outcome).length) := by
  have hsolid : ∀ c ∈ Text.removeBlanks outcome, c = '0' ∨ c = '1' := by
    intro c hc
    obtain ⟨hmem, hblank⟩ := List.mem_filter.mp hc
    rcases hdigits c hmem with h | h | h
    · exact .inl h
    · exact .inr h
    · exact absurd h (by simpa using hblank)
  by_cases hblank : (Text.trim outcome).any Text.isBlank = true
  · exact spaced_or_error hpos hlength hsolid hblank
  · exact joined_or_error hpos hlength hsolid hblank

end Cutting

/-- Of the texts of digits and blanks exactly those that show a shot are cut, into the words of the
shot. The others are reported with the sum of the lengths, as it is added up in floating point, and
the number of their digits; the sum is exact below 2^53. No text has 2^53 characters. -/
theorem split_iff_shows (lengths : RegisterLengths)
    (hpos : ∀ r ∈ lengths.toList, Number.isPositive r.2 = true) (outcome : String)
    (hlength : outcome.length < 2 ^ 53) (reverse : Bool) :
    (∀ shot, Matches lengths.toList shot → Shows shot outcome.toList →
      split outcome lengths reverse = .ok (lengths.keys.zip (shot.map (oriented reverse)))) ∧
    ((∀ c ∈ outcome.toList, c = '0' ∨ c = '1' ∨ Text.isBlank c = true) →
      (∀ words, split outcome lengths reverse = .ok words →
        ∃ shot, Matches lengths.toList shot ∧ Shows shot outcome.toList ∧
          words = lengths.keys.zip (shot.map (oriented reverse)) ∧
          shot.reverse.flatten.map digit = Text.removeBlanks outcome.toList) ∧
      ((¬ ∃ shot, Matches lengths.toList shot ∧ Shows shot outcome.toList) →
        split outcome lengths reverse =
          .error (.shape outcome (lengths.values.foldl (fun sum length => sum + length) 0)
            (Float.ofNat (Text.removeBlanks outcome.toList).length)))) ∧
    ∀ n : ℕ, (lengths.values.map Number.value).sum = n → n < 2 ^ 53 →
      lengths.values.foldl (fun sum length => sum + length) 0 = Float.ofNat n := by
  have hbound : outcome.toList.length < 2 ^ 53 := by rwa [String.length_toList]
  refine ⟨fun shot hmatches h => split_of_shows hpos hlength hmatches h reverse, ?_, ?_⟩
  · intro hdigits
    have hcases := shows_or_error hpos hbound hdigits
    constructor
    · intro words hwords
      rcases hcases with ⟨shot, hmatches, hshows⟩ | herror
      · rw [split_of_shows hpos hlength hmatches hshows reverse] at hwords
        exact ⟨shot, hmatches, hshows, (Except.ok.inj hwords).symm, hshows.removeBlanks_eq.symm⟩
      · unfold split at hwords
        rw [herror] at hwords
        cases hwords
    · intro hnone
      unfold split
      rw [hcases.resolve_left hnone]
      rfl
  · intro n hsum hn
    obtain ⟨ns, hns⟩ := exists_sizes hpos
    have hvalue := hns.sum_value
    unfold Table.values at hsum
    rw [List.map_map] at hsum
    have hnat : ns.sum = n := by exact_mod_cast hvalue.symm.trans hsum
    rcases hns.total with ⟨-, htotal⟩ | ⟨hge, -⟩
    · rw [← hnat]
      exact htotal
    · omega

/-- Two registers, in a text with blanks around and between their words. -/
theorem split_iff_shows_twoRegisters :
    split " 10 \t1\n" ⟨[("a", 1), ("b", 2)]⟩ true = .ok [("a", [true]), ("b", [false, true])] ∧
      ∃ shot, Matches [("a", 1), ("b", 2)] shot ∧ Shows shot " 10 \t1\n".toList ∧
        [("a", [true]), ("b", [false, true])] = ["a", "b"].zip (shot.map (oriented true)) ∧
        shot.reverse.flatten.map digit = ['1', '0', '1'] := by
  have h := split_iff_shows ⟨[("a", 1), ("b", 2)]⟩ (by decide +kernel) " 10 \t1\n" (by decide) true
  have hmatches : Matches [("a", 1), ("b", 2)] [[true], [true, false]] :=
    .cons (by decide +kernel) (.cons (by decide +kernel) .nil)
  have hshows : Shows [[true], [true, false]] " 10 \t1\n".toList :=
    @Shows.spaced [[true], [true, false]] [' '] _ ['\n'] (by simp [Text.isBlank])
      (by simp [Text.isBlank]) (@Text.Spaced.more ['1', '0'] [' ', '\t'] _ _ (by decide)
        (by simp [Text.isBlank]) (.last ['1']))
  have hsplit := h.1 _ hmatches hshows
  exact ⟨hsplit, (h.2.1 (by simp [Text.isBlank])).1 _ hsplit⟩

/-- From 2^53 on the sum of the lengths is rounded. -/
theorem split_roundedTotal :
    split "0" ⟨[("a", 9007199254740992), ("b", 1), ("c", 1)]⟩ false =
        .error (.shape "0" 9007199254740992 1) ∧
      Number.value 9007199254740992 ≠
        (([9007199254740992, 1, 1] : List Float).map Number.value).sum := by
  decide +kernel

end OpenQasm.Outcome

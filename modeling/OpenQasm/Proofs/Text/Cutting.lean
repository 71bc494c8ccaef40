import Mathlib
import OpenQasm.Text.Blank
import OpenQasm.Text.Word

/-!
# Cutting undoes joining

Pieces without a separator that are joined by it come back when the text is cut. A line made of
words with single spaces between them is left as it is by trimming and by collapsing blanks.
-/
namespace OpenQasm.Text

theorem isDigit_iff {c : Char} : c.isDigit = true ↔ 48 ≤ c.toNat ∧ c.toNat ≤ 57 := by
  unfold Char.isDigit
  rw [Bool.and_eq_true, decide_eq_true_eq, decide_eq_true_eq, ge_iff_le, UInt32.le_iff_toNat_le,
    UInt32.le_iff_toNat_le]
  rfl

theorem isNameStart_iff {c : Char} :
    isNameStart c = true ↔
      (65 ≤ c.toNat ∧ c.toNat ≤ 90) ∨ (97 ≤ c.toNat ∧ c.toNat ≤ 122) ∨ c.toNat = 95 := by
  unfold isNameStart Char.isAlpha Char.isUpper Char.isLower
  simp only [Bool.or_eq_true, Bool.and_eq_true, decide_eq_true_eq, UInt32.le_iff_toNat_le,
    ge_iff_le, beq_iff_eq, or_assoc]
  have hunderscore : c = '_' ↔ c.toNat = 95 := by
    rw [← Char.toNat_inj]
    rfl
  rw [hunderscore]
  rfl

theorem isNameChar_iff {c : Char} :
    isNameChar c = true ↔ isNameStart c = true ∨ c.isDigit = true := by
  unfold isNameChar
  rw [Bool.or_eq_true]

theorem isDigit_of_isNameStart {c : Char} (h : isNameStart c = true) : c.isDigit = false := by
  rw [← Bool.not_eq_true, isDigit_iff]
  rw [isNameStart_iff] at h
  omega

theorem isBlank_of_isNameChar {c : Char} (h : isNameChar c = true) : isBlank c = false := by
  rw [isNameChar_iff, isNameStart_iff, isDigit_iff] at h
  unfold isBlank
  simp
  omega

theorem isBlank_of_isDigit {c : Char} (h : c.isDigit = true) : isBlank c = false :=
  isBlank_of_isNameChar (isNameChar_iff.mpr (.inr h))

theorem isBlank_of_isNameStart {c : Char} (h : isNameStart c = true) : isBlank c = false :=
  isBlank_of_isNameChar (isNameChar_iff.mpr (.inl h))

theorem takeWhile_stop {p : Char → Bool} {rest : List Char}
    (h : ∀ c ∈ rest.head?, p c = false) : rest.takeWhile p = [] := by
  cases rest with
  | nil => rfl
  | cons c rest => exact List.takeWhile_cons_of_neg (by simp [h c rfl])

/-- A run of characters with a property, before a text that does not go on with one. -/
theorem takeWhile_append_stop {p : Char → Bool} {run rest : List Char}
    (hrun : ∀ c ∈ run, p c = true) (hstop : rest.takeWhile p = []) :
    (run ++ rest).takeWhile p = run ∧ (run ++ rest).dropWhile p = rest := by
  have hrest : rest.dropWhile p = rest := by
    have h := List.takeWhile_append_dropWhile (p := p) (l := rest)
    rwa [hstop, List.nil_append] at h
  rw [List.takeWhile_append_of_pos hrun, List.dropWhile_append_of_pos hrun, hstop, hrest,
    List.append_nil]
  exact ⟨rfl, rfl⟩

theorem stop_dropWhile (p : Char → Bool) (cs : List Char) :
    ∀ c ∈ (cs.dropWhile p).head?, p c = false := by
  intro c hc
  have h := List.head?_dropWhile_not p cs
  rw [Option.mem_def.mp hc] at h
  exact h

theorem trimStart_of_head {s : List Char} (h : ∀ c ∈ s.head?, isBlank c = false) :
    trimStart s = s := by
  cases s with
  | nil => rfl
  | cons c s => exact List.dropWhile_cons_of_neg (by simpa using h c rfl)

theorem trimEnd_of_last {s : List Char} (h : ∀ c ∈ s.getLast?, isBlank c = false) :
    trimEnd s = s := by
  have hrev : trimStart s.reverse = s.reverse := trimStart_of_head (by simpa using h)
  unfold trimEnd
  unfold trimStart at hrev
  rw [hrev, List.reverse_reverse]

theorem trim_of_ends {s : List Char} (hhead : ∀ c ∈ s.head?, isBlank c = false)
    (hlast : ∀ c ∈ s.getLast?, isBlank c = false) : trim s = s := by
  rw [trim, trimStart_of_head hhead, trimEnd_of_last hlast]

theorem trim_of_no_blanks {s : List Char} (h : ∀ c ∈ s, isBlank c = false) : trim s = s :=
  trim_of_ends (fun c hc => h c (List.mem_of_mem_head? hc))
    (fun c hc => h c (List.mem_of_mem_getLast? hc))

theorem trimStart_append {b s : List Char} (hb : ∀ c ∈ b, isBlank c = true)
    (hs : ∀ c ∈ s.head?, isBlank c = false) : trimStart (b ++ s) = s :=
  (takeWhile_append_stop hb (takeWhile_stop hs)).2

theorem trimEnd_append {s b : List Char} (hs : ∀ c ∈ s.getLast?, isBlank c = false)
    (hb : ∀ c ∈ b, isBlank c = true) : trimEnd (s ++ b) = s := by
  have h := trimStart_append (b := b.reverse) (s := s.reverse) (by simpa using hb)
    (by simpa using hs)
  unfold trimStart at h
  rw [trimEnd, List.reverse_append, h, List.reverse_reverse]

theorem exists_trimStart (s : List Char) :
    ∃ b : List Char, (∀ c ∈ b, isBlank c = true) ∧ s = b ++ trimStart s :=
  ⟨s.takeWhile isBlank, fun _ hc => List.mem_takeWhile_imp hc,
    List.takeWhile_append_dropWhile.symm⟩

theorem exists_trimEnd (s : List Char) :
    ∃ b : List Char, (∀ c ∈ b, isBlank c = true) ∧ s = trimEnd s ++ b := by
  obtain ⟨b, hb, heq⟩ := exists_trimStart s.reverse
  refine ⟨b.reverse, by simpa using hb, ?_⟩
  rw [trimEnd, ← List.reverse_append]
  unfold trimStart at heq
  rw [← heq, List.reverse_reverse]

theorem trimEnd_solid {c : Char} (h : isBlank c = false) (s : List Char) :
    trimEnd (c :: s) = c :: trimEnd s := by
  unfold trimEnd
  rw [List.reverse_cons, List.dropWhile_append]
  split_ifs with hempty
  · simp_all
  · simp

theorem trimEnd_blank {c : Char} (h : isBlank c = true) (s : List Char) :
    trimEnd (c :: s) = if trimEnd s = [] then [] else c :: trimEnd s := by
  unfold trimEnd
  rw [List.reverse_cons, List.dropWhile_append]
  by_cases hempty : (s.reverse.dropWhile isBlank).isEmpty = true
  · rw [if_pos hempty, if_pos (by simpa using hempty)]
    simp [h]
  · rw [if_neg hempty, if_neg (by simpa using hempty), List.reverse_append]
    rfl

theorem splitWhere_of_none {p : Char → Bool} {s : List Char} (h : ∀ c ∈ s, p c = false) :
    splitWhere p s = [s] := by
  induction s with
  | nil => rfl
  | cons c s ih =>
      have hc := h c (.head _)
      simp [splitWhere, hc, ih (fun d hd => h d (.tail _ hd))]

theorem splitWhere_append_cons {p : Char → Bool} {s : List Char} {c : Char}
    (h : ∀ d ∈ s, p d = false) (hc : p c = true) (t : List Char) :
    splitWhere p (s ++ c :: t) = s :: splitWhere p t := by
  induction s with
  | nil => simp [splitWhere, hc]
  | cons d s ih =>
      have hd := h d (.head _)
      simp [splitWhere, hd, ih (fun e he => h e (.tail _ he))]

/-- Cutting at a separator gives back the pieces that were joined by it. -/
theorem splitWhere_intercalate {p : Char → Bool} {c : Char} (hc : p c = true)
    {ss : List (List Char)} (hne : ss ≠ []) (h : ∀ s ∈ ss, ∀ d ∈ s, p d = false) :
    splitWhere p (List.intercalate [c] ss) = ss := by
  induction ss with
  | nil => exact absurd rfl hne
  | cons s ss ih =>
      have hs := h s (.head _)
      cases ss with
      | nil => simpa using splitWhere_of_none hs
      | cons t ss =>
          have hrest := ih (by simp) (fun u hu => h u (.tail _ hu))
          rw [List.intercalate_cons_cons, List.append_assoc, List.singleton_append,
            splitWhere_append_cons hs hc, hrest]

theorem not_mem_splitWhere {p : Char → Bool} {s piece : List Char} (h : piece ∈ splitWhere p s) :
    ∀ c ∈ piece, p c = false := by
  induction s generalizing piece with
  | nil => simp_all [splitWhere]
  | cons c s ih =>
      by_cases hc : p c = true
      · simp only [splitWhere, hc, if_true, List.mem_cons] at h
        rcases h with rfl | h
        · simp
        · exact ih h
      · simp only [splitWhere, hc] at h
        cases hs : splitWhere p s with
        | nil => exact absurd hs (splitWhere_ne_nil _ _)
        | cons first rest =>
            rw [hs] at h ih
            rcases List.mem_cons.mp h with rfl | h
            · simpa [hc] using ih (.head _)
            · exact ih (.tail _ h)

theorem length_splitWhere (p : Char → Bool) (s : List Char) :
    (splitWhere p s).length = s.countP p + 1 := by
  induction s with
  | nil => rfl
  | cons c s ih =>
      by_cases hc : p c = true <;> simp [splitWhere, hc, ih]

theorem mem_intercalate {s c : Char} {ws : List (List Char)} (h : c ∈ List.intercalate [s] ws) :
    c = s ∨ ∃ w ∈ ws, c ∈ w := by
  induction ws with
  | nil => simp at h
  | cons w ws ih =>
      cases ws with
      | nil =>
          rw [List.intercalate_singleton] at h
          exact .inr ⟨w, .head _, h⟩
      | cons v ws =>
          rw [List.intercalate_cons_cons, List.mem_append, List.mem_append,
            List.mem_singleton] at h
          rcases h with (h | h) | h
          · exact .inr ⟨w, .head _, h⟩
          · exact .inl h
          · rcases ih h with h | ⟨u, hu, h⟩
            · exact .inl h
            · exact .inr ⟨u, .tail _ hu, h⟩

theorem toList_join (separator : String) (ss : List String) :
    (join separator ss).toList = List.intercalate separator.toList (ss.map String.toList) := by
  induction ss with
  | nil => rfl
  | cons s ss ih =>
      cases ss with
      | nil => simp [join]
      | cons t ss =>
          rw [join, String.toList_append, String.toList_append, ih, List.map_cons, List.map_cons,
            List.map_cons, List.intercalate_cons_cons]
          intro hnil
          cases hnil

theorem collapseFrom_append {w : List Char} (hne : w ≠ []) (hw : ∀ c ∈ w, isBlank c = false)
    (after : Bool) (t : List Char) : collapseFrom after (w ++ t) = w ++ collapseFrom false t := by
  induction w generalizing after with
  | nil => exact absurd rfl hne
  | cons c w ih =>
      have hc := hw c (.head _)
      cases w with
      | nil => simp [collapseFrom, hc]
      | cons d w =>
          have hrest := ih (by simp) (fun e he => hw e (.tail _ he)) false
          simp only [List.cons_append] at hrest ⊢
          rw [collapseFrom, hc]
          simp only [Bool.false_eq_true, if_false, hrest]

def IsWord (w : List Char) : Prop :=
  w ≠ [] ∧ ∀ c ∈ w, isBlank c = false

theorem collapseBlanks_words {ws : List (List Char)} (h : ∀ w ∈ ws, IsWord w) :
    collapseBlanks (List.intercalate [' '] ws) = List.intercalate [' '] ws := by
  have hblank : isBlank ' ' = true := by decide
  unfold collapseBlanks
  -- after a space the next word starts as at the start of the line
  suffices hany : ∀ after, collapseFrom after (List.intercalate [' '] ws) =
      List.intercalate [' '] ws from hany false
  induction ws with
  | nil => intro after; rfl
  | cons w ws ih =>
      intro after
      obtain ⟨hne, hw⟩ := h w (.head _)
      cases ws with
      | nil =>
          have := collapseFrom_append hne hw after []
          simpa [collapseFrom] using this
      | cons v ws =>
          have hrest := ih (fun u hu => h u (.tail _ hu)) true
          rw [List.intercalate_cons_cons, List.append_assoc, List.singleton_append,
            collapseFrom_append hne hw, collapseFrom, hblank, hrest]
          simp

theorem head?_intercalate_words {w : List Char} {ws : List (List Char)} (h : IsWord w) :
    ∀ c ∈ (List.intercalate [' '] (w :: ws)).head?, isBlank c = false := by
  obtain ⟨hne, hw⟩ := h
  obtain ⟨c, w, rfl⟩ := List.exists_cons_of_ne_nil hne
  have hc := hw c (.head _)
  cases ws <;> simp [List.intercalate_cons_cons, hc]

theorem getLast?_intercalate_words {ws : List (List Char)} (h : ∀ w ∈ ws, IsWord w) :
    ∀ c ∈ (List.intercalate [' '] ws).getLast?, isBlank c = false := by
  induction ws with
  | nil => simp
  | cons w ws ih =>
      obtain ⟨hne, hw⟩ := h w (.head _)
      cases ws with
      | nil =>
          intro c hc
          simp only [List.intercalate_singleton] at hc
          exact hw c (List.mem_of_mem_getLast? hc)
      | cons v ws =>
          have hrest := ih (fun u hu => h u (.tail _ hu))
          obtain ⟨hv, -⟩ := h v (.tail _ (.head _))
          intro c hc
          apply hrest c
          have hnil : List.intercalate [' '] (v :: ws) ≠ [] := by
            cases ws <;> simp [List.intercalate_cons_cons, hv]
          rw [List.intercalate_cons_cons, List.getLast?_append_of_ne_nil _ hnil] at hc
          exact hc

/-- A line of words is its own trimmed and collapsed form, also after a line break. -/
theorem collapseBlanks_trim_words {ws : List (List Char)} (hne : ws ≠ [])
    (h : ∀ w ∈ ws, IsWord w) {lead : List Char} (hlead : ∀ c ∈ lead, isBlank c = true) :
    collapseBlanks (trim (lead ++ List.intercalate [' '] ws)) = List.intercalate [' '] ws := by
  obtain ⟨w, ws, rfl⟩ := List.exists_cons_of_ne_nil hne
  have htrim : trim (lead ++ List.intercalate [' '] (w :: ws)) =
      List.intercalate [' '] (w :: ws) := by
    unfold trim
    rw [trimStart, List.dropWhile_append_of_pos hlead]
    change trim _ = _
    exact trim_of_ends (head?_intercalate_words (h w (.head _))) (getLast?_intercalate_words h)
  rw [htrim, collapseBlanks_words h]

end OpenQasm.Text

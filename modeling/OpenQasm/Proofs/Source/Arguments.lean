import OpenQasm.Proofs.Text.Groups
import OpenQasm.Source.Command

/-!
# Nested arguments

The arguments of a gate are cut at the commas outside parentheses. An argument may hold commas of
its own, as a call of a function with two arguments does, as long as they are in parentheses that
are closed again. Cutting goes over such an argument without a cut and comes back to depth zero, so
arguments joined by commas come back one by one, however deeply they are nested and whatever blanks
stand around them.
-/
namespace OpenQasm.Source

open OpenQasm.Text

def depth (cs : List Char) : ℤ :=
  (cs.map depthChange).sum

@[simp] theorem depth_nil : depth [] = 0 := rfl

@[simp] theorem depth_cons (c : Char) (cs : List Char) :
    depth (c :: cs) = depthChange c + depth cs := by
  simp [depth]

theorem depth_of_no_brackets {cs : List Char} (h : ∀ c ∈ cs, (c == '(' || c == ')') = false) :
    depth cs = 0 := by
  refine List.sum_eq_zero (fun d hd => ?_)
  obtain ⟨c, hc, rfl⟩ := List.mem_map.mp hd
  have hbracket := h c hc
  rw [Bool.or_eq_false_iff] at hbracket
  simp [depthChange, hbracket.1, hbracket.2]

/-- Every parenthesis is closed, and none before it is opened. -/
structure Balanced (cs : List Char) : Prop where
  nonneg : ∀ before, before <+: cs → 0 ≤ depth before
  closed : depth cs = 0

/-- No comma stands outside parentheses. -/
def CommasInside (cs : List Char) : Prop :=
  ∀ before, before ++ [','] <+: cs → depth before ≠ 0

/-- A text that can be one of several arguments. -/
structure IsNested (w : List Char) : Prop where
  trimmed : trim w = w
  balanced : Balanced w
  inside : CommasInside w

instance (cs : List Char) : Decidable (Balanced cs) :=
  decidable_of_iff ((∀ before ∈ cs.inits, 0 ≤ depth before) ∧ depth cs = 0)
    ⟨fun h => ⟨fun before hb => h.1 before ((List.mem_inits _ _).mpr hb), h.2⟩,
      fun h => ⟨fun before hb => h.nonneg before ((List.mem_inits _ _).mp hb), h.closed⟩⟩

instance (cs : List Char) : Decidable (CommasInside cs) :=
  decidable_of_iff (∀ before ∈ cs.inits, before ++ [','] ∈ cs.inits → depth before ≠ 0)
    ⟨fun h before hb => h before ((List.mem_inits _ _).mpr ((List.prefix_append _ _).trans hb))
        ((List.mem_inits _ _).mpr hb),
      fun h before _ hb => h before ((List.mem_inits _ _).mp hb)⟩

instance (w : List Char) : Decidable (IsNested w) :=
  decidable_of_iff (trim w = w ∧ Balanced w ∧ CommasInside w)
    ⟨fun h => ⟨h.1, h.2.1, h.2.2⟩, fun h => ⟨h.trimmed, h.balanced, h.inside⟩⟩

/-- Cutting goes over a text in which no comma is at depth zero, counted from the depth before. -/
theorem splitAtDepth_append {cs : List Char} {d : ℤ}
    (h : ∀ before, before ++ [','] <+: cs → d + depth before ≠ 0) (rest : List Char) :
    splitAtDepth d (cs ++ rest) = (splitAtDepth (d + depth cs) rest).modifyHead (cs ++ ·) := by
  induction cs generalizing d with
  | nil =>
      rw [List.nil_append, depth_nil, add_zero]
      exact (congrFun List.modifyHead_id _).symm
  | cons c cs ih =>
      have hcut : ¬((c == ',' && d == 0) = true) := by
        rw [Bool.and_eq_true, beq_iff_eq, beq_iff_eq]
        rintro ⟨rfl, rfl⟩
        exact h [] (by simp) rfl
      have hrest : ∀ before, before ++ [','] <+: cs → d + depthChange c + depth before ≠ 0 := by
        intro before hb
        have := h (c :: before) (by simpa using hb)
        rwa [depth_cons, ← add_assoc] at this
      rw [List.cons_append, splitAtDepth, if_neg hcut, ih hrest, List.modifyHead_modifyHead,
        depth_cons, add_assoc]
      rfl

/-- Cutting goes over a text without a cut and is at depth zero again behind it. -/
def Uncut (text : List Char) : Prop :=
  ∀ rest, splitAtDepth 0 (text ++ rest) = (splitAtDepth 0 rest).modifyHead (text ++ ·)

theorem Uncut.append {s t : List Char} (hs : Uncut s) (ht : Uncut t) : Uncut (s ++ t) := by
  intro rest
  rw [List.append_assoc, hs, ht, List.modifyHead_modifyHead]
  simp [Function.comp_def]

theorem IsNested.uncut {w : List Char} (h : IsNested w) : Uncut w := by
  intro rest
  have hinside : ∀ before, before ++ [','] <+: w → 0 + depth before ≠ 0 := by
    intro before hb
    rw [zero_add]
    exact h.inside before hb
  rw [splitAtDepth_append hinside, h.balanced.closed, add_zero]

theorem uncut_of_blanks {b : List Char} (h : ∀ c ∈ b, isBlank c = true) : Uncut b := by
  intro rest
  have hcommas : ∀ before, before ++ [','] <+: b → 0 + depth before ≠ 0 := by
    intro before hb
    exact absurd (h ',' (hb.subset (by simp))) (by decide)
  have hbrackets : ∀ c ∈ b, (c == '(' || c == ')') = false := by
    intro c hc
    have hblank := h c hc
    rw [← Bool.not_eq_true, Bool.or_eq_true, beq_iff_eq, beq_iff_eq]
    rintro (rfl | rfl) <;> cases hblank
  rw [splitAtDepth_append hcommas, depth_of_no_brackets hbrackets, add_zero]

/-- Texts that are not cut come back when they are joined by commas and cut. -/
theorem splitAtDepth_intercalate {texts : List (List Char)} (hne : texts ≠ [])
    (h : ∀ text ∈ texts, Uncut text) :
    splitAtDepth 0 (List.intercalate [','] texts) = texts := by
  induction texts with
  | nil => exact absurd rfl hne
  | cons text texts ih =>
      have hcut := h text (.head _)
      cases texts with
      | nil =>
          have hlast := hcut []
          rw [List.append_nil] at hlast
          rw [List.intercalate_singleton, hlast]
          simp [splitAtDepth]
      | cons next texts =>
          have hrest := ih (by simp) (fun t ht => h t (.tail _ ht))
          rw [List.intercalate_cons_cons, List.append_assoc, List.singleton_append, hcut,
            splitAtDepth, if_pos (by decide), hrest]
          simp

def Surrounded (text w : List Char) : Prop :=
  ∃ lead trail, (∀ c ∈ lead, isBlank c = true) ∧ (∀ c ∈ trail, isBlank c = true) ∧
    text = lead ++ (w ++ trail)

theorem Surrounded.refl (w : List Char) : Surrounded w w :=
  ⟨[], [], List.forall_mem_nil _, List.forall_mem_nil _, by simp⟩

theorem Surrounded.uncut {text w : List Char} (h : Surrounded text w) (hw : IsNested w) :
    Uncut text := by
  obtain ⟨lead, trail, hlead, htrail, rfl⟩ := h
  exact (uncut_of_blanks hlead).append (hw.uncut.append (uncut_of_blanks htrail))

theorem Surrounded.trim_eq {text w : List Char} (h : Surrounded text w) (hw : IsNested w) :
    trim text = w := by
  obtain ⟨lead, trail, hlead, htrail, rfl⟩ := h
  have hends := trim_ends w
  rw [hw.trimmed] at hends
  exact trim_surround hlead htrail hends.1 hends.2

theorem surrounded_arguments {texts ws : List (List Char)} (h : List.Forall₂ Surrounded texts ws)
    (hws : ∀ w ∈ ws, IsNested w) : (∀ text ∈ texts, Uncut text) ∧ texts.map trim = ws := by
  induction h with
  | nil => exact ⟨List.forall_mem_nil _, rfl⟩
  | cons hsurround _ ih =>
      have hw := hws _ (.head _)
      obtain ⟨huncut, htrim⟩ := ih (fun w' hw' => hws w' (.tail _ hw'))
      refine ⟨List.forall_mem_cons.mpr ⟨hsurround.uncut hw, huncut⟩, ?_⟩
      rw [List.map_cons, hsurround.trim_eq hw, htrim]

theorem splitArguments_surrounded {texts ws : List (List Char)} (hne : ws ≠ [])
    (hws : ∀ w ∈ ws, IsNested w) (h : List.Forall₂ Surrounded texts ws) :
    splitArguments (List.intercalate [','] texts) = ws := by
  obtain ⟨huncut, htrim⟩ := surrounded_arguments h hws
  have htexts : texts ≠ [] := by
    rintro rfl
    exact hne htrim.symm
  rw [splitArguments, splitAtDepth_intercalate htexts huncut, htrim]

/-- Splitting undoes joining. Texts without blanks at their ends, with parentheses that match and
with commas only in parentheses are read back from what they are joined to by commas, also if there
are blanks around the commas and at the ends. -/
theorem splitArguments_join {texts ws : List String} (hne : ws ≠ [])
    (hws : ∀ w ∈ ws, IsNested w.toList)
    (h : List.Forall₂ (fun text w => Surrounded text.toList w.toList) texts ws) :
    splitArguments (join "," texts).toList = ws.map String.toList := by
  have hlists : List.Forall₂ Surrounded (texts.map String.toList) (ws.map String.toList) := by
    rw [List.forall₂_map_left_iff, List.forall₂_map_right_iff]
    exact h
  have hnested : ∀ w ∈ ws.map String.toList, IsNested w := by
    simpa using hws
  rw [toList_join]
  exact splitArguments_surrounded (by simpa using hne) hnested hlists

/-- Calls within calls, with blanks at every place where they may be, and an argument that is
empty. -/
theorem splitArguments_join_calls :
    (∀ w ∈ ["max(1,atan2(2, 3))", "", "-(x)"], IsNested w.toList) ∧
      splitArguments (join "," [" max(1,atan2(2, 3)) ", "", "\t-(x)\n"]).toList =
        ["max(1,atan2(2, 3))".toList, "".toList, "-(x)".toList] := by
  have hnested : ∀ w ∈ ["max(1,atan2(2, 3))", "", "-(x)"], IsNested w.toList := by
    decide +kernel
  have hblank (b : Char) (hb : isBlank b = true) : ∀ c ∈ [b], isBlank c = true := by
    simpa using hb
  refine ⟨hnested, splitArguments_join (by simp) hnested ?_⟩
  refine .cons ⟨[' '], [' '], hblank _ (by decide), hblank _ (by decide), rfl⟩ ?_
  refine .cons (.refl _) (.cons ?_ .nil)
  exact ⟨['\t'], ['\n'], hblank _ (by decide), hblank _ (by decide), rfl⟩

end OpenQasm.Source

import OpenQasm.Proofs.Text.Cutting
import OpenQasm.Source.Reader

/-!
# Comments and line ends

The statements of a source are fixed by its words, its semicolons and its line breaks. Blanks before
other blanks, or at the end of the source, change nothing. A comment after a line leaves at most
such a blank behind once it is removed, so it does not change what is read. A carriage return before
a line break is such a blank as well, but it also ends the line that a comment has to reach the end
of: before one, two slashes start no comment. Hence carriage returns are harmless only where no line
that gets one has a comment.
-/
namespace OpenQasm.Source

open OpenQasm.Text

/-- A text without blanks at its end and with its runs of blanks collapsed, where `after` says that
the character before it was blank. -/
def squeeze (after : Bool) (s : List Char) : List Char :=
  collapseFrom after (trimEnd s)

theorem squeeze_solid (after : Bool) {c : Char} (h : isBlank c = false) (s : List Char) :
    squeeze after (c :: s) = c :: squeeze false s := by
  simp [squeeze, trimEnd_solid h, collapseFrom, h]

theorem squeeze_blank {c : Char} (h : isBlank c = true) (s : List Char) :
    squeeze true (c :: s) = squeeze true s := by
  unfold squeeze
  rw [trimEnd_blank h]
  split_ifs with hempty <;> simp [collapseFrom, h, hempty]

theorem squeeze_eq_nil_iff {s : List Char} : squeeze true s = [] ↔ trimEnd s = [] := by
  induction s with
  | nil => simp [squeeze, trimEnd, collapseFrom]
  | cons c s ih =>
      by_cases hc : isBlank c = true
      · rw [squeeze_blank hc, ih, trimEnd_blank hc]
        split_ifs with hempty <;> simp [hempty]
      · rw [squeeze_solid _ (by simpa using hc), trimEnd_solid (by simpa using hc)]
        simp

/-- The first of several blanks between words stands for all, and none is left at the end. -/
theorem squeeze_of_head {s : List Char} (h : s.head?.all isBlank = true) :
    squeeze false s = if squeeze true s = [] then [] else ' ' :: squeeze true s := by
  cases s with
  | nil => rfl
  | cons c s =>
      have hc : isBlank c = true := h
      rw [squeeze_blank hc]
      split_ifs with hempty
      · simp [squeeze, trimEnd_blank hc, squeeze_eq_nil_iff.mp hempty, collapseFrom]
      · rw [squeeze_eq_nil_iff] at hempty
        simp [squeeze, trimEnd_blank hc, hempty, collapseFrom, hc]

theorem collapseBlanks_trim (s : List Char) : collapseBlanks (trim s) = squeeze true s := by
  induction s with
  | nil => rfl
  | cons c s ih =>
      by_cases hc : isBlank c = true
      · have htrim : trim (c :: s) = trim s := by simp [trim, trimStart, hc]
        rw [squeeze_blank hc, htrim, ih]
      · have hc : isBlank c = false := by simpa using hc
        have htrim : trim (c :: s) = trimEnd (c :: s) := by simp [trim, trimStart, hc]
        rw [htrim, squeeze_solid _ hc, ← squeeze_solid false hc]
        rfl

/-- The second text is the first with further blanks, none of them a line break, each before a
blank or at the end. -/
inductive Padded : List Char → List Char → Prop
  | nil : Padded [] []
  | keep (c : Char) {s t : List Char} (h : Padded s t) : Padded (c :: s) (c :: t)
  | pad {b : Char} {s t : List Char} (hb : isBlank b = true) (hbreak : b ≠ '\n')
      (hs : s.head?.all isBlank = true) (h : Padded s t) : Padded s (b :: t)

namespace Padded

theorem squeeze_eq {s t : List Char} (h : Padded s t) (after : Bool) :
    squeeze after s = squeeze after t := by
  induction h generalizing after with
  | nil => rfl
  | @keep c s t h ih =>
      cases hc : isBlank c with
      | false => rw [squeeze_solid _ hc, squeeze_solid _ hc, ih]
      | true =>
          cases after with
          | true => rw [squeeze_blank hc, squeeze_blank hc, ih]
          | false =>
              rw [squeeze_of_head (s := c :: s) hc, squeeze_of_head (s := c :: t) hc,
                squeeze_blank hc, squeeze_blank hc, ih]
  | @pad b s t hb _ hs h ih =>
      cases after with
      | true => rw [squeeze_blank hb, ih]
      | false => rw [squeeze_of_head hs, squeeze_of_head (s := b :: t) hb, squeeze_blank hb, ih]

theorem newlines_eq {s t : List Char} (h : Padded s t) : newlines s = newlines t := by
  induction h with
  | nil => rfl
  | keep c h ih => simpa [newlines, List.countP_cons] using ih
  | pad hb hbreak hs h ih => simpa [newlines, List.countP_cons, hbreak] using ih

theorem newlines_lead_eq {s t : List Char} (h : Padded s t) :
    newlines (s.takeWhile isBlank) = newlines (t.takeWhile isBlank) := by
  induction h with
  | nil => rfl
  | keep c h ih =>
      cases hc : isBlank c with
      | false => simp [hc]
      | true => simpa [newlines, hc, List.countP_cons] using ih
  | pad hb hbreak hs h ih => simpa [newlines, hb, List.countP_cons, hbreak] using ih

theorem ofPart?_eq {s t : List Char} (h : Padded s t) (line : ℕ) :
    Statement.ofPart? line s = Statement.ofPart? line t := by
  unfold Statement.ofPart?
  rw [collapseBlanks_trim, collapseBlanks_trim, h.squeeze_eq, h.newlines_lead_eq]

theorem append (l : List Char) {s t : List Char} (h : Padded s t) : Padded (l ++ s) (l ++ t) := by
  induction l with
  | nil => exact h
  | cons c l ih => exact .keep c ih

theorem split {s t : List Char} (h : Padded s t) :
    List.Forall₂ Padded (splitWhere (· == ';') s) (splitWhere (· == ';') t) := by
  have hsolid {b : Char} (hb : isBlank b = true) : (b == ';') = false := by
    rw [← Bool.not_eq_true, beq_iff_eq]
    rintro rfl
    exact absurd hb (by decide)
  induction h with
  | nil => exact .cons .nil .nil
  | @keep c s t h ih =>
      by_cases hc : (c == ';') = true
      · simp only [splitWhere, hc, if_true]
        exact .cons .nil ih
      · simp only [splitWhere, hc]
        generalize splitWhere (· == ';') s = parts, splitWhere (· == ';') t = parts' at ih ⊢
        cases ih with
        | nil => exact .nil
        | cons hpart hrest => exact .cons (.keep c hpart) hrest
  | @pad b s t hb hbreak hs h ih =>
      simp only [splitWhere, hsolid hb]
      -- the first part starts as the text does, so the blank may stand before it
      have hfirst : ∀ part ∈ (splitWhere (· == ';') s).head?, part.head?.all isBlank = true := by
        cases s with
        | nil => simp [splitWhere]
        | cons d s =>
            have hd : isBlank d = true := hs
            cases hrest : splitWhere (· == ';') s with
            | nil => exact absurd hrest (splitWhere_ne_nil _ _)
            | cons part parts => simp [splitWhere, hsolid hd, hrest, hd]
      generalize splitWhere (· == ';') s = parts, splitWhere (· == ';') t = parts' at ih hfirst ⊢
      cases ih with
      | nil => exact .nil
      | cons hpart hrest => exact .cons (.pad hb hbreak (hfirst _ rfl) hpart) hrest

end Padded

theorem statementsFrom_eq_of_padded {parts parts' : List (List Char)}
    (h : List.Forall₂ Padded parts parts') (line : ℕ) :
    statementsFrom line parts = statementsFrom line parts' := by
  induction h generalizing line with
  | nil => rfl
  | cons hpart hrest ih =>
      cases hrest with
      | nil => simp only [statementsFrom, hpart.ofPart?_eq]
      | cons => simp only [statementsFrom, hpart.ofPart?_eq, hpart.newlines_eq, ih]

/-- The second line is the first with further blanks at its end. -/
def Trails (line line' : List Char) : Prop :=
  ∃ bs : List Char, (∀ b ∈ bs, isBlank b = true ∧ b ≠ '\n') ∧ line' = line ++ bs

theorem Trails.refl (line : List Char) : Trails line line :=
  ⟨[], by simp, by simp⟩

theorem Trails.padded {l l' s t : List Char} (hl : Trails l l') (hs : s.head?.all isBlank = true)
    (h : Padded s t) : Padded (l ++ s) (l' ++ t) := by
  obtain ⟨bs, hbs, rfl⟩ := hl
  rw [List.append_assoc]
  apply Padded.append
  induction bs with
  | nil => exact h
  | cons b bs ih =>
      exact .pad (hbs b (.head _)).1 (hbs b (.head _)).2 hs (ih (fun d hd => hbs d (.tail _ hd)))

theorem padded_lines {lines lines' : List (List Char)} (h : List.Forall₂ Trails lines lines') :
    Padded (List.intercalate ['\n'] lines) (List.intercalate ['\n'] lines') := by
  induction h with
  | nil => exact .nil
  | @cons l l' lines lines' hl hrest ih =>
      cases hrest with
      | nil =>
          have := hl.padded (s := []) rfl .nil
          simpa [List.intercalate] using this
      | cons =>
          rw [List.intercalate_cons_cons, List.intercalate_cons_cons, List.append_assoc,
            List.append_assoc]
          exact hl.padded (show isBlank '\n' = true by decide) (.keep '\n' ih)

def lines (source : List Char) : List (List Char) :=
  splitWhere (· == '\n') source

theorem stripComments_lines {ls : List (List Char)} (hne : ls ≠ [])
    (h : ∀ l ∈ ls, ∀ c ∈ l, (c == '\n') = false) :
    stripComments (List.intercalate ['\n'] ls) = List.intercalate ['\n'] (ls.map stripComment) := by
  unfold stripComments
  rw [splitWhere_intercalate rfl hne h]

theorem stripComment_append (line : List Char) {text : List Char}
    (h : ∀ c ∈ text, isLineEnd c = false) :
    Trails (stripComment line) (stripComment (line ++ ' ' :: '/' :: '/' :: text)) := by
  have htext : text.any isLineEnd = false := by simpa using h
  have htail : (' ' :: '/' :: '/' :: text).any isLineEnd = false := by
    simp [htext, isLineEnd]
  induction line with
  | nil =>
      refine ⟨[' '], fun b hb => ?_, ?_⟩
      · rw [List.mem_singleton.mp hb]
        decide
      · simp [stripComment, htext, isLineEnd]
  | cons c cs ih =>
      -- what follows the slashes of the line has a line end in it as before or not
      have hslash : ((cs ++ ' ' :: '/' :: '/' :: text).head? == some '/') =
          (cs.head? == some '/') := by
        cases cs <;> rfl
      rw [List.cons_append, stripComment, stripComment, hslash, List.any_append, htail,
        Bool.or_false]
      split_ifs
      · exact Trails.refl _
      · obtain ⟨bs, hbs, heq⟩ := ih
        exact ⟨bs, hbs, by rw [heq]; rfl⟩

theorem stripComment_return (line : List Char) :
    stripComment (line ++ ['\r']) = line ++ ['\r'] := by
  induction line with
  | nil => rfl
  | cons c cs ih =>
      have hend : (cs ++ ['\r']).any isLineEnd = true := by simp [isLineEnd]
      rw [List.cons_append, stripComment, hend, ih]
      simp

/-- A line with a comment after it, if one is given. -/
def withComment (line : List Char) : Option (List Char) → List Char
  | none => line
  | some text => line ++ ' ' :: '/' :: '/' :: text

/-- The lines of a source with comments after some of them, given by the number of the line. -/
def commented (comments : ℕ → Option (List Char)) (source : String) : List (List Char) :=
  (lines source.toList).mapIdx (fun i line => withComment line (comments i))

/-- The text of lines with an ending after each but the last. -/
def ofLines (ending : List Char) (ls : List (List Char)) : String :=
  String.ofList (List.intercalate ending ls)

/-- Lines that get a carriage return each, but the last. -/
def withReturns : List (List Char) → List (List Char)
  | [] => []
  | [l] => [l]
  | l :: ls => (l ++ ['\r']) :: withReturns ls

theorem ofLines_return (ls : List (List Char)) :
    ofLines ['\r', '\n'] ls = ofLines ['\n'] (withReturns ls) := by
  unfold ofLines
  congr 1
  induction ls with
  | nil => rfl
  | cons l ls ih =>
      cases ls with
      | nil => rfl
      | cons m ls =>
          have hne : ∃ n ns, withReturns (m :: ls) = n :: ns := by
            cases ls <;> exact ⟨_, _, rfl⟩
          have hstep : withReturns (l :: m :: ls) = (l ++ ['\r']) :: withReturns (m :: ls) := rfl
          obtain ⟨n, ns, hns⟩ := hne
          rw [List.intercalate_cons_cons, ih, hstep, hns, List.intercalate_cons_cons]
          simp

/-- Lines whose comments are removed to the same up to blanks at the ends read the same. -/
theorem read_ofLines {ls ls' : List (List Char)} (hne : ls ≠ [])
    (h : ∀ l ∈ ls, ∀ c ∈ l, (c == '\n') = false) (h' : ∀ l ∈ ls', ∀ c ∈ l, (c == '\n') = false)
    (hlines : List.Forall₂ Trails (ls.map stripComment) (ls'.map stripComment)) :
    read (ofLines ['\n'] ls') = read (ofLines ['\n'] ls) := by
  have hne' : ls' ≠ [] := by
    rintro rfl
    have := hlines.length_eq
    simp_all
  have hstatements : statements (ofLines ['\n'] ls).toList =
      statements (ofLines ['\n'] ls').toList := by
    unfold statements ofLines
    rw [String.toList_ofList, String.toList_ofList, stripComments_lines hne h,
      stripComments_lines hne' h']
    exact statementsFrom_eq_of_padded (padded_lines hlines).split 1
  unfold read
  rw [hstatements]

theorem ofLines_lines (source : String) : ofLines ['\n'] (lines source.toList) = source := by
  have hjoin (s : List Char) : List.intercalate ['\n'] (lines s) = s := by
    induction s with
    | nil => rfl
    | cons c s ih =>
        cases hs : splitWhere (· == '\n') s with
        | nil => exact absurd hs (splitWhere_ne_nil _ _)
        | cons l ls =>
            rw [lines, hs] at ih
            by_cases hc : (c == '\n') = true
            · rw [lines, splitWhere, if_pos hc, hs, List.intercalate_cons_cons, ih,
                eq_of_beq hc]
              rfl
            · rw [lines, splitWhere, if_neg hc, hs]
              cases ls with
              | nil => simpa [List.intercalate] using ih
              | cons m ls =>
                  rw [List.intercalate_cons_cons] at ih
                  rw [List.modifyHead_cons, List.intercalate_cons_cons, ← ih]
                  simp
  rw [ofLines, hjoin, String.ofList_toList]

theorem trails_commented (comments : ℕ → Option (List Char))
    (h : ∀ i, ∀ text ∈ comments i, ∀ c ∈ text, isLineEnd c = false) (ls : List (List Char)) :
    List.Forall₂ Trails (ls.map stripComment)
      ((ls.mapIdx (fun i line => withComment line (comments i))).map stripComment) := by
  induction ls generalizing comments with
  | nil => exact .nil
  | cons l ls ih =>
      rw [List.mapIdx_cons]
      refine .cons ?_ (ih (fun i => comments (i + 1)) (fun i => h (i + 1)))
      cases hl : comments 0 with
      | none => exact Trails.refl _
      | some text => exact stripComment_append l (h 0 text hl)

/-- Carriage returns are blanks at the ends of lines that have no comment. -/
theorem trails_withReturns {ls : List (List Char)}
    (h : ∀ l ∈ ls.dropLast, stripComment l = l) :
    List.Forall₂ Trails (ls.map stripComment) ((withReturns ls).map stripComment) := by
  induction ls with
  | nil => exact .nil
  | cons l ls ih =>
      cases ls with
      | nil => exact .cons (Trails.refl _) .nil
      | cons m ls =>
          rw [List.dropLast_cons_cons] at h
          refine .cons ?_ (ih (fun k hk => h k (.tail _ hk)))
          rw [h l (.head _), stripComment_return]
          refine ⟨['\r'], fun b hb => ?_, rfl⟩
          rw [List.mem_singleton.mp hb]
          decide

theorem unbroken_commented {comments : ℕ → Option (List Char)}
    (h : ∀ i, ∀ text ∈ comments i, ∀ c ∈ text, isLineEnd c = false) (source : String) :
    ∀ l ∈ commented comments source, ∀ c ∈ l, (c == '\n') = false := by
  intro l hl
  obtain ⟨i, hi, rfl⟩ := List.mem_mapIdx.mp hl
  have hline := not_mem_splitWhere (List.getElem_mem hi)
  cases hi : comments i with
  | none => exact hline
  | some text =>
      intro c hc
      simp only [withComment, List.mem_append, List.mem_cons] at hc
      rcases hc with hc | rfl | rfl | rfl | hc
      · exact hline c hc
      · rfl
      · rfl
      · rfl
      · have := h i text hi c hc
        simp only [isLineEnd, Bool.or_eq_false_iff] at this
        exact this.1.1.1

theorem unbroken_withReturns {ls : List (List Char)} (h : ∀ l ∈ ls, ∀ c ∈ l, (c == '\n') = false) :
    ∀ l ∈ withReturns ls, ∀ c ∈ l, (c == '\n') = false := by
  induction ls with
  | nil => exact h
  | cons l ls ih =>
      cases ls with
      | nil => exact h
      | cons m ls =>
          intro k hk
          rcases List.mem_cons.mp hk with rfl | hk
          · intro c hc
            rcases List.mem_append.mp hc with hc | hc
            · exact h l (.head _) c hc
            · rw [List.mem_singleton.mp hc]
              rfl
          · exact ih (fun n hn => h n (.tail _ hn)) k hk

/-- Comments after lines do not change what is read. Neither do carriage returns before the line
breaks if no line that gets one has a comment. -/
theorem read_commented (source : String) (comments : ℕ → Option (List Char))
    (h : ∀ i, ∀ text ∈ comments i, ∀ c ∈ text, isLineEnd c = false) :
    read (ofLines ['\n'] (commented comments source)) = read source ∧
      ((∀ line ∈ (commented comments source).dropLast, stripComment line = line) →
        read (ofLines ['\r', '\n'] (commented comments source)) = read source) := by
  have hbreaks := unbroken_commented h source
  have hlines : ∀ l ∈ lines source.toList, ∀ c ∈ l, (c == '\n') = false :=
    fun l hl => not_mem_splitWhere hl
  have hread : read (ofLines ['\n'] (commented comments source)) = read source :=
    calc read (ofLines ['\n'] (commented comments source)) =
          read (ofLines ['\n'] (lines source.toList)) :=
          read_ofLines (splitWhere_ne_nil _ _) hlines hbreaks (trails_commented comments h _)
      _ = read source := by rw [ofLines_lines]
  refine ⟨hread, fun hnone => ?_⟩
  have hne : commented comments source ≠ [] := by
    simp [commented, lines]
  rw [ofLines_return, read_ofLines hne hbreaks (unbroken_withReturns hbreaks)
    (trails_withReturns hnone), hread]

/-- A program over several lines, the last of which may take a comment whatever the line ends. -/
def plainSource : String :=
  "OPENQASM 2.0;\nqreg q[2]; x\n q[1];"

def lastComment : ℕ → Option (List Char)
  | 2 => some " flip; // twice".toList
  | _ => none

theorem read_commented_plainSource :
    (∀ i, ∀ text ∈ lastComment i, ∀ c ∈ text, isLineEnd c = false) ∧
      (∀ line ∈ (commented lastComment plainSource).dropLast, stripComment line = line) ∧
      read plainSource = .ok ⟨⟨none, [.gate (.fixed .pauliX 1)]⟩, 2⟩ ∧
      read (ofLines ['\n'] (commented lastComment plainSource)) = read plainSource ∧
      read (ofLines ['\r', '\n'] (commented lastComment plainSource)) = read plainSource := by
  have hcomments : ∀ i, ∀ text ∈ lastComment i, ∀ c ∈ text, isLineEnd c = false := by
    intro i text htext
    unfold lastComment at htext
    split at htext
    · rw [← Option.mem_some_iff.mp htext]
      simp [isLineEnd]
    · cases htext
  have hnone : ∀ line ∈ (commented lastComment plainSource).dropLast,
      stripComment line = line := by
    decide +kernel
  have hread := read_commented plainSource lastComment hcomments
  exact ⟨hcomments, hnone, by decide +kernel, hread.1, hread.2 hnone⟩

/-- A comment on a line that ends with a carriage return is read as part of the next statement. -/
theorem read_comment_before_return :
    read "OPENQASM 2.0;\nqreg q[1];" = .ok ⟨⟨none, []⟩, 1⟩ ∧
      ofLines ['\r', '\n'] (commented (fun i => if i = 0 then some " header".toList else none)
        "OPENQASM 2.0;\nqreg q[1];") = "OPENQASM 2.0; // header\r\nqreg q[1];" ∧
      read "OPENQASM 2.0; // header\r\nqreg q[1];" =
        .error (.at 1 (.unreadable "// header qreg q[1]")) := by
  refine ⟨?_, ?_, ?_⟩ <;> decide +kernel

end OpenQasm.Source

import OpenQasm.Proofs.Text.Cutting
import OpenQasm.Source.Statement

/-!
# Statements of a text of lines

A text whose lines are words with single spaces between them, each line ended by a semicolon, is
cut into one statement for each line, with the text of the line. Nothing in it is a comment, since
no line has two slashes.
-/
namespace OpenQasm.Source

open OpenQasm.Text

/-- A line that is read as one statement with the same text. -/
structure PlainLine (l : List Char) : Prop where
  words : ∃ ws, ws ≠ [] ∧ (∀ w ∈ ws, IsWord w) ∧ l = List.intercalate [' '] ws
  unended : ∀ c ∈ l, (c == ';') = false
  slashes : l.count '/' ≤ 1

theorem PlainLine.unbroken {l : List Char} (h : PlainLine l) : ∀ c ∈ l, (c == '\n') = false := by
  obtain ⟨ws, -, hws, rfl⟩ := h.words
  intro c hc
  rw [← Bool.not_eq_true, beq_iff_eq]
  rintro rfl
  rcases mem_intercalate hc with hspace | ⟨w, hw, hmem⟩
  · cases hspace
  · exact absurd ((hws w hw).2 _ hmem) (by decide)

theorem PlainLine.ne_nil {l : List Char} (h : PlainLine l) : l ≠ [] := by
  obtain ⟨ws, hne, hws, rfl⟩ := h.words
  obtain ⟨w, ws, rfl⟩ := List.exists_cons_of_ne_nil hne
  have hw := (hws w (.head _)).1
  cases ws <;> simp [List.intercalate_cons_cons, hw]

theorem stripComment_of_count {l : List Char} (h : l.count '/' ≤ 1) : stripComment l = l := by
  induction l with
  | nil => rfl
  | cons c cs ih =>
      have hcs : cs.count '/' ≤ 1 := le_trans (List.count_le_count_cons) h
      rw [stripComment, ih hcs, if_neg]
      intro hcomment
      simp only [Bool.and_eq_true, beq_iff_eq] at hcomment
      obtain ⟨⟨rfl, hhead⟩, -⟩ := hcomment
      obtain ⟨cs', rfl⟩ : ∃ cs', cs = '/' :: cs' := by
        cases cs with
        | nil => cases hhead
        | cons d cs' =>
            cases hhead
            exact ⟨cs', rfl⟩
      simp at h

/-- The text of lines, each ended by a semicolon and a line break. -/
def program (lines : List (List Char)) : List Char :=
  lines.flatMap (fun l => l ++ [';', '\n'])

theorem program_eq_lines (lines : List (List Char)) :
    program lines = List.intercalate ['\n'] (lines.map (· ++ [';']) ++ [[]]) := by
  induction lines with
  | nil => rfl
  | cons l lines ih =>
      have hcons : ∃ m ms, lines.map (· ++ [';']) ++ [[]] = m :: ms := by
        cases lines with
        | nil => exact ⟨_, _, rfl⟩
        | cons _ _ => exact ⟨_, _, rfl⟩
      obtain ⟨m, ms, hms⟩ := hcons
      rw [program, List.flatMap_cons, ← program, ih, List.map_cons, List.cons_append, hms,
        List.intercalate_cons_cons]
      simp

theorem stripComments_program {lines : List (List Char)} (h : ∀ l ∈ lines, PlainLine l) :
    stripComments (program lines) = program lines := by
  have hbreak : ∀ m ∈ lines.map (· ++ [';']) ++ [[]], ∀ c ∈ m, (c == '\n') = false := by
    intro m hm c hc
    rcases List.mem_append.mp hm with hm | hm
    · obtain ⟨l, hl, rfl⟩ := List.mem_map.mp hm
      rcases List.mem_append.mp hc with hc | hc
      · exact (h l hl).unbroken c hc
      · rw [List.mem_singleton.mp hc]
        decide
    · rw [List.mem_singleton.mp hm] at hc
      cases hc
  have hstrip : (lines.map (· ++ [';']) ++ [[]]).map stripComment =
      lines.map (· ++ [';']) ++ [[]] := by
    rw [List.map_append, List.map_map]
    congr 1
    apply List.map_congr_left
    intro l hl
    apply stripComment_of_count
    simpa using (h l hl).slashes
  unfold stripComments
  rw [program_eq_lines, splitWhere_intercalate rfl (by simp) hbreak, hstrip]

theorem ofPart?_blank (line : ℕ) {lead : List Char} (h : ∀ c ∈ lead, isBlank c = true) :
    Statement.ofPart? line lead = none := by
  have htrim : trim lead = [] := by
    rw [trim, trimStart, List.dropWhile_eq_nil_iff.mpr h]
    rfl
  unfold Statement.ofPart?
  rw [htrim]
  rfl

theorem ofPart?_line (line : ℕ) {lead l : List Char} (hlead : ∀ c ∈ lead, isBlank c = true)
    (h : PlainLine l) : ∃ n, Statement.ofPart? line (lead ++ l) = some ⟨n, l⟩ := by
  have htext : collapseBlanks (trim (lead ++ l)) = l := by
    obtain ⟨ws, hne, hws, rfl⟩ := h.words
    exact collapseBlanks_trim_words hne hws hlead
  have hempty : l.isEmpty = false := by simpa using h.ne_nil
  unfold Statement.ofPart?
  dsimp only
  rw [htext, hempty]
  exact ⟨_, rfl⟩

theorem statementsFrom_program {lines : List (List Char)} (h : ∀ l ∈ lines, PlainLine l)
    (line : ℕ) {lead : List Char} (hlead : ∀ c ∈ lead, isBlank c = true) :
    ∃ sts, statementsFrom line (splitWhere (· == ';') (lead ++ program lines)) = (sts, none) ∧
      sts.map Statement.text = lines := by
  have hunended : ∀ c ∈ lead, (c == ';') = false := by
    intro c hc
    rw [← Bool.not_eq_true, beq_iff_eq]
    rintro rfl
    exact absurd (hlead _ hc) (by decide)
  induction lines generalizing line lead with
  | nil =>
      refine ⟨[], ?_, rfl⟩
      rw [program, List.flatMap_nil, List.append_nil, splitWhere_of_none hunended,
        statementsFrom, ofPart?_blank line hlead]
  | cons l lines ih =>
      have hl := h l (.head _)
      have hpart : ∀ c ∈ lead ++ l, (c == ';') = false := by
        intro c hc
        rcases List.mem_append.mp hc with hc | hc
        · exact hunended c hc
        · exact hl.unended c hc
      have hcut : splitWhere (· == ';') (lead ++ program (l :: lines)) =
          (lead ++ l) :: splitWhere (· == ';') (['\n'] ++ program lines) := by
        rw [← splitWhere_append_cons (c := ';') hpart rfl]
        simp [program]
      obtain ⟨n, hn⟩ := ofPart?_line line hlead hl
      have hbreak : ∀ c ∈ ['\n'], isBlank c = true ∧ (c == ';') = false := by
        intro c hc
        rw [List.mem_singleton.mp hc]
        decide
      obtain ⟨sts, hsts, htexts⟩ := ih (fun m hm => h m (.tail _ hm)) (line + newlines (lead ++ l))
        (fun c hc => (hbreak c hc).1) (fun c hc => (hbreak c hc).2)
      refine ⟨⟨n, l⟩ :: sts, ?_, by simp [htexts]⟩
      rw [hcut]
      -- the part after a semicolon is never missing
      cases hrest : splitWhere (· == ';') (['\n'] ++ program lines) with
      | nil => exact absurd hrest (splitWhere_ne_nil _ _)
      | cons part parts =>
          rw [hrest] at hsts
          rw [statementsFrom, hsts, hn]
          · rfl
          · simp

/-- A program of plain lines has one statement for each line. -/
theorem statements_program {lines : List (List Char)} (h : ∀ l ∈ lines, PlainLine l) :
    ∃ sts, statements (program lines) = (sts, none) ∧ sts.map Statement.text = lines := by
  unfold statements
  rw [stripComments_program h]
  exact statementsFrom_program h 1 (List.forall_mem_nil _)

end OpenQasm.Source

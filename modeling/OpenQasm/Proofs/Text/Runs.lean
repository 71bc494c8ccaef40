import OpenQasm.Proofs.Text.Cutting

/-!
# Runs of a text

The maximal runs of name characters cut a text into words and what lies between them. A word that
has no name character on either side is one of the runs. Where two texts meet and no name goes on
from one into the other, the words of both together are those of each.
-/
namespace OpenQasm.Text

/-- A word with no name character on either side of it. -/
def WholeWord (word text : List Char) : Prop :=
  ∃ before after, text = before ++ word ++ after ∧
    (∀ c ∈ before.getLast?, isNameChar c = false) ∧ (∀ c ∈ after.head?, isNameChar c = false)

/-- No name goes on from the first text into the second. -/
def Cut (s t : List Char) : Prop :=
  ∀ c ∈ s.getLast?, ∀ d ∈ t.head?, isNameChar c = false ∨ isNameChar d = false

theorem Cut.of_last {s : List Char} (h : ∀ c ∈ s.getLast?, isNameChar c = false)
    (t : List Char) : Cut s t :=
  fun c hc _ _ => .inl (h c hc)

theorem Cut.of_head (s : List Char) {t : List Char} (h : ∀ c ∈ t.head?, isNameChar c = false) :
    Cut s t :=
  fun _ _ d hd => .inr (h d hd)

theorem Cut.concat (s : List Char) {c : Char} (h : isNameChar c = false) (t : List Char) :
    Cut (s ++ [c]) t := by
  refine Cut.of_last ?_ t
  rw [List.getLast?_concat]
  rintro _ ⟨⟩
  exact h

theorem Cut.cons (s : List Char) {c : Char} (h : isNameChar c = false) (t : List Char) :
    Cut s (c :: t) := by
  refine Cut.of_head s ?_
  rintro _ ⟨⟩
  exact h

theorem Cut.tail {s t rest : List Char} (h : Cut (s ++ t) rest) : Cut t rest :=
  fun c hc => h c (List.mem_getLast?_append_of_mem_getLast? hc)

theorem Cut.stop {word rest : List Char} (h : Cut word rest) (hne : word ≠ [])
    (hword : ∀ c ∈ word, isNameChar c = true) : ∀ d ∈ rest.head?, isNameChar d = false := by
  obtain ⟨word, c, rfl⟩ := List.eq_nil_or_concat' word |>.resolve_left hne
  intro d hd
  rcases h c (by simp) d hd with hc | hd
  · rw [hword c (by simp)] at hc
    cases hc
  · exact hd

/-- A whole word of a piece is one of the text, if the text is cut at the ends of the piece. -/
theorem WholeWord.append {word piece before after : List Char} (h : WholeWord word piece)
    (hne : word ≠ []) (hword : ∀ c ∈ word, isNameChar c = true) (hbefore : Cut before piece)
    (hafter : Cut piece after) : WholeWord word (before ++ piece ++ after) := by
  obtain ⟨left, right, rfl, hleft, hright⟩ := h
  refine ⟨before ++ left, right ++ after, by simp, ?_, ?_⟩
  · intro c hc
    by_cases hl : left = []
    · subst hl
      obtain ⟨d, word, rfl⟩ := List.exists_cons_of_ne_nil hne
      rw [List.append_nil] at hc
      rcases hbefore c hc d rfl with h | h
      · exact h
      · rw [hword d List.mem_cons_self] at h
        cases h
    · rw [List.getLast?_append_of_ne_nil _ hl] at hc
      exact hleft c hc
  · intro c hc
    cases right with
    | nil =>
        rw [List.append_nil] at hafter
        exact hafter.tail.stop hne hword c hc
    | cons d right => exact hright c hc

theorem exists_word {c : Char} (hc : isNameChar c = true) (cs : List Char) :
    ∃ word rest, c :: cs = word ++ rest ∧ word ≠ [] ∧ (∀ d ∈ word, isNameChar d = true) ∧
      ∀ d ∈ rest.head?, isNameChar d = false := by
  refine ⟨(c :: cs).takeWhile isNameChar, (c :: cs).dropWhile isNameChar,
    List.takeWhile_append_dropWhile.symm, ?_, fun d hd => List.mem_takeWhile_imp hd,
    stop_dropWhile isNameChar (c :: cs)⟩
  rw [List.takeWhile_cons_of_pos hc]
  exact List.cons_ne_nil _ _

/-- A text starts with at most one whole word. -/
theorem word_append_inj {word word' rest rest' : List Char}
    (hword : ∀ c ∈ word, isNameChar c = true) (hrest : ∀ c ∈ rest.head?, isNameChar c = false)
    (hword' : ∀ c ∈ word', isNameChar c = true) (hrest' : ∀ c ∈ rest'.head?, isNameChar c = false)
    (h : word ++ rest = word' ++ rest') : word = word' ∧ rest = rest' := by
  have hleft := takeWhile_append_stop hword (takeWhile_stop hrest)
  have hright := takeWhile_append_stop hword' (takeWhile_stop hrest')
  rw [h] at hleft
  exact ⟨hleft.1.symm.trans hright.1, hleft.2.symm.trans hright.2⟩

/-- The maximal runs of name characters and of other characters, in order. -/
def wordRuns (cs : List Char) : List (List Char) :=
  cs.splitBy (fun c d => isNameChar c == isNameChar d)

theorem flatten_wordRuns (cs : List Char) : (wordRuns cs).flatten = cs :=
  List.flatten_splitBy _ cs

/-- Two texts with a change of characters between them. -/
theorem wordRuns_append {s t : List Char}
    (h : ∀ c ∈ s.getLast?, ∀ d ∈ t.head?, isNameChar c ≠ isNameChar d) :
    wordRuns (s ++ t) = wordRuns s ++ wordRuns t :=
  List.splitBy_append (fun c hc d hd => beq_false_of_ne (h c hc d hd))

theorem wordRuns_uniform {run : List Char} {b : Bool} (hne : run ≠ [])
    (h : ∀ c ∈ run, isNameChar c = b) : wordRuns run = [run] := by
  refine List.splitBy_of_isChain hne ?_
  refine List.Pairwise.isChain (List.pairwise_of_forall_mem_list ?_)
  intro c hc d hd
  rw [h c hc, h d hd]
  exact beq_self_eq_true b

theorem uniform_of_mem_wordRuns {cs run : List Char} (h : run ∈ wordRuns cs) :
    ∀ c ∈ run, ∀ d ∈ run, isNameChar c = isNameChar d := by
  have hchain : (run.map isNameChar).IsChain (· = ·) :=
    (List.isChain_map _).mpr ((List.isChain_of_mem_splitBy h).imp (fun _ _ => eq_of_beq))
  have hpairs := List.isChain_iff_pairwise.mp hchain
  intro c hc d hd
  exact hpairs.forall_of_forall (fun _ _ => rfl) (List.mem_map_of_mem hc) (List.mem_map_of_mem hd)

/-- What comes before a run, and what comes after it, is of the other kind there. -/
theorem ends_of_wordRuns {cs run : List Char} {before after : List (List Char)}
    (h : wordRuns cs = before ++ run :: after) :
    ∀ d ∈ run, (∀ c ∈ before.flatten.getLast?, isNameChar c ≠ isNameChar d) ∧
      ∀ c ∈ after.flatten.head?, isNameChar c ≠ isNameChar d := by
  have hmem : run ∈ wordRuns cs := by simp [h]
  have huniform := uniform_of_mem_wordRuns hmem
  have hchain := List.isChain_getLast_head_splitBy (fun c d => isNameChar c == isNameChar d) cs
  rw [← wordRuns, h] at hchain
  obtain ⟨-, hnext, hprevious⟩ := List.isChain_append.mp hchain
  rw [List.isChain_cons] at hnext
  intro d hd
  constructor
  · intro c hc
    rcases List.eq_nil_or_concat' before with rfl | ⟨others, last, rfl⟩
    · cases hc
    · obtain ⟨hlast, hrun, hne⟩ := hprevious last (by simp) run rfl
      rw [List.flatten_concat, List.getLast?_append_of_ne_nil _ hlast,
        List.getLast?_eq_getLast_of_ne_nil hlast] at hc
      cases hc
      rw [huniform d hd _ (List.head_mem hrun)]
      exact ne_of_beq_false hne
  · intro c hc
    cases after with
    | nil => cases hc
    | cons first others =>
        obtain ⟨hrun, hfirst, hne⟩ := hnext.1 first rfl
        rw [List.flatten_cons, List.head?_append_of_ne_nil _ hfirst,
          List.head?_eq_some_head hfirst] at hc
        cases hc
        rw [huniform d hd _ (List.getLast_mem hrun)]
        exact (ne_of_beq_false hne).symm

/-- The whole words of a text are its runs. -/
theorem mem_wordRuns_iff {word text : List Char} (hne : word ≠ [])
    (hword : ∀ c ∈ word, isNameChar c = true) : word ∈ wordRuns text ↔ WholeWord word text := by
  constructor
  · intro h
    obtain ⟨before, after, hruns⟩ := List.append_of_mem h
    obtain ⟨c, hc⟩ := List.exists_mem_of_ne_nil word hne
    obtain ⟨hbefore, hafter⟩ := ends_of_wordRuns hruns c hc
    rw [hword c hc] at hbefore hafter
    refine ⟨before.flatten, after.flatten, ?_, ?_, ?_⟩
    · rw [← flatten_wordRuns text, hruns]
      simp
    · exact fun d hd => Bool.not_eq_true _ ▸ hbefore d hd
    · exact fun d hd => Bool.not_eq_true _ ▸ hafter d hd
  · rintro ⟨before, after, rfl, hbefore, hafter⟩
    rw [List.append_assoc, wordRuns_append, wordRuns_append, wordRuns_uniform hne hword]
    · simp
    · intro c hc d hd
      rw [hword c (List.mem_of_mem_getLast? hc), hafter d hd]
      exact Bool.true_eq_false_eq_False
    · intro c hc d hd
      rw [List.head?_append_of_ne_nil _ hne] at hd
      rw [hbefore c hc, hword d (List.mem_of_mem_head? hd)]
      exact Bool.false_ne_true

end OpenQasm.Text

import OpenQasm.Proofs.Text.Cutting

/-!
# Words with blanks between them

The groups of a text are the words that blanks separate. A text of words with blanks between any two
of them is cut into these words again, and every text that neither starts nor ends with a blank is
of this kind.
-/
namespace OpenQasm.Text

/-- Groups of characters in order with blanks between them. -/
inductive Spaced : List (List Char) → List Char → Prop
  | last (g : List Char) : Spaced [g] g
  | more (g : List Char) {gap rest : List Char} {gs : List (List Char)} (hne : gap ≠ [])
      (hgap : ∀ c ∈ gap, isBlank c = true) (h : Spaced gs rest) :
      Spaced (g :: gs) (g ++ (gap ++ rest))

theorem blankGroups_blanks {gap : List Char} (h : ∀ c ∈ gap, isBlank c = true) (s : List Char) :
    blankGroups (gap ++ s) = blankGroups s := by
  induction gap with
  | nil => rfl
  | cons c gap ih =>
      rw [← ih (fun d hd => h d (.tail _ hd)), List.cons_append]
      unfold blankGroups
      rw [splitWhere, if_pos (h c (.head _))]
      rfl

theorem blankGroups_word {g : List Char} (hg : IsWord g) {rest : List Char}
    (hrest : ∀ c ∈ rest.head?, isBlank c = true) :
    blankGroups (g ++ rest) = g :: blankGroups rest := by
  obtain ⟨hne, hsolid⟩ := hg
  cases rest with
  | nil =>
      unfold blankGroups
      rw [List.append_nil, splitWhere_of_none hsolid]
      simp [splitWhere, hne]
  | cons c rest =>
      have hc := hrest c rfl
      have hskip : blankGroups ([c] ++ rest) = blankGroups rest :=
        blankGroups_blanks (by simpa using hc) rest
      rw [List.singleton_append] at hskip
      rw [hskip]
      unfold blankGroups
      rw [splitWhere_append_cons hsolid hc]
      simp [hne]

theorem Spaced.blankGroups_eq {gs : List (List Char)} {s : List Char} (h : Spaced gs s)
    (hgs : ∀ g ∈ gs, IsWord g) : blankGroups s = gs := by
  induction h with
  | last g =>
      have hword : blankGroups (g ++ []) = g :: blankGroups [] :=
        blankGroups_word (hgs g (.head _)) (by simp)
      rwa [List.append_nil] at hword
  | more g hne hgap h ih =>
      rename_i gap rest gs
      have hhead : ∀ c ∈ (gap ++ rest).head?, isBlank c = true := by
        obtain ⟨d, gap, rfl⟩ := List.exists_cons_of_ne_nil hne
        intro c hc
        cases hc
        exact hgap d (.head _)
      rw [blankGroups_word (hgs g (.head _)) hhead, blankGroups_blanks hgap,
        ih (fun g' hg' => hgs g' (.tail _ hg'))]

/-- A text that neither starts nor ends with a blank is its groups with blanks between them. -/
theorem spaced_blankGroups {s : List Char} (hne : s ≠ [])
    (hhead : ∀ c ∈ s.head?, isBlank c = false) (hlast : ∀ c ∈ s.getLast?, isBlank c = false) :
    (∀ g ∈ blankGroups s, IsWord g) ∧ Spaced (blankGroups s) s := by
  induction hn : s.length using Nat.strong_induction_on generalizing s with
  | _ n ih =>
  subst hn
  have hword : IsWord (s.takeWhile (fun c => !isBlank c)) := by
    refine ⟨?_, fun c hc => by simpa using List.mem_takeWhile_imp hc⟩
    obtain ⟨c, s, rfl⟩ := List.exists_cons_of_ne_nil hne
    rw [List.takeWhile_cons_of_pos (by simp [hhead c rfl])]
    simp
  have hstop : ∀ c ∈ (s.dropWhile (fun c => !isBlank c)).head?, isBlank c = true :=
    fun c hc => by simpa using stop_dropWhile (fun c => !isBlank c) s c hc
  have hs : s = s.takeWhile (fun c => !isBlank c) ++ s.dropWhile (fun c => !isBlank c) :=
    List.takeWhile_append_dropWhile.symm
  generalize s.takeWhile (fun c => !isBlank c) = w at hword hs
  generalize s.dropWhile (fun c => !isBlank c) = tail at hstop hs
  subst hs
  rw [blankGroups_word hword hstop]
  by_cases htail : tail = []
  · subst htail
    rw [List.append_nil]
    exact ⟨by simpa [blankGroups, splitWhere] using hword, .last w⟩
  · -- After the first word come blanks, and after them the text goes on with the next word.
    obtain ⟨gap, hgap, heq⟩ := exists_trimStart tail
    have hnext : ∀ c ∈ (trimStart tail).head?, isBlank c = false := stop_dropWhile isBlank tail
    generalize trimStart tail = rest at heq hnext
    subst heq
    have hgapne : gap ≠ [] := by
      rintro rfl
      obtain ⟨c, rest, rfl⟩ := List.exists_cons_of_ne_nil htail
      exact absurd (hstop c rfl) (by simp [hnext c rfl])
    have hrestne : rest ≠ [] := by
      rintro rfl
      rw [List.append_nil, List.getLast?_append_of_ne_nil _ hgapne] at hlast
      have hmem := List.getLast_mem hgapne
      exact absurd (hgap _ hmem) (by simp [hlast _ (List.getLast?_eq_getLast_of_ne_nil hgapne)])
    rw [List.getLast?_append_of_ne_nil _ htail, List.getLast?_append_of_ne_nil _ hrestne] at hlast
    have hlength : rest.length < (w ++ (gap ++ rest)).length := by
      have := List.length_pos_of_ne_nil hgapne
      simp only [List.length_append]
      omega
    obtain ⟨hwords, hspaced⟩ := ih rest.length hlength hrestne hnext hlast rfl
    rw [blankGroups_blanks hgap]
    refine ⟨?_, .more w hgapne hgap hspaced⟩
    intro g hg
    rcases List.mem_cons.mp hg with rfl | hg
    · exact hword
    · exact hwords g hg

theorem Spaced.ends {gs : List (List Char)} {s : List Char} (h : Spaced gs s)
    (hgs : ∀ g ∈ gs, IsWord g) :
    s ≠ [] ∧ (∀ c ∈ s.head?, isBlank c = false) ∧ ∀ c ∈ s.getLast?, isBlank c = false := by
  have hhead {g : List Char} (hg : IsWord g) (rest : List Char) :
      ∀ c ∈ (g ++ rest).head?, isBlank c = false := by
    rw [List.head?_append_of_ne_nil _ hg.1]
    exact fun c hc => hg.2 c (List.mem_of_mem_head? hc)
  induction h with
  | last g =>
      have hg := hgs g (.head _)
      have hfirst := hhead hg []
      rw [List.append_nil] at hfirst
      exact ⟨hg.1, hfirst, fun c hc => hg.2 c (List.mem_of_mem_getLast? hc)⟩
  | more g hne hgap h ih =>
      obtain ⟨hrest, -, hlast⟩ := ih (fun g' hg' => hgs g' (.tail _ hg'))
      refine ⟨by simp [hne], hhead (hgs g (.head _)) _, ?_⟩
      rwa [← List.append_assoc, List.getLast?_append_of_ne_nil _ hrest]

theorem trim_surround {lead body trail : List Char} (hlead : ∀ c ∈ lead, isBlank c = true)
    (htrail : ∀ c ∈ trail, isBlank c = true) (hhead : ∀ c ∈ body.head?, isBlank c = false)
    (hlast : ∀ c ∈ body.getLast?, isBlank c = false) : trim (lead ++ (body ++ trail)) = body := by
  unfold trim
  by_cases hbody : body = []
  · subst hbody
    have hblanks : trimStart (lead ++ ([] ++ trail)) = [] := by
      refine List.dropWhile_eq_nil_iff.mpr ?_
      intro c hc
      rcases List.mem_append.mp hc with hc | hc
      · exact hlead c hc
      · exact htrail c hc
    rw [hblanks]
    rfl
  · rw [trimStart_append hlead (by rwa [List.head?_append_of_ne_nil _ hbody]),
      trimEnd_append hlast htrail]

theorem exists_trim (s : List Char) :
    ∃ lead trail, (∀ c ∈ lead, isBlank c = true) ∧ (∀ c ∈ trail, isBlank c = true) ∧
      s = lead ++ (trim s ++ trail) := by
  obtain ⟨lead, hlead, hs⟩ := exists_trimStart s
  obtain ⟨trail, htrail, hstart⟩ := exists_trimEnd (trimStart s)
  refine ⟨lead, trail, hlead, htrail, ?_⟩
  unfold trim
  rw [← hstart, ← hs]

theorem trim_ends (s : List Char) :
    (∀ c ∈ (trim s).head?, isBlank c = false) ∧ ∀ c ∈ (trim s).getLast?, isBlank c = false := by
  constructor
  · have hstart : ∀ c ∈ (trimStart s).head?, isBlank c = false := stop_dropWhile isBlank s
    unfold trim
    cases hs : trimStart s with
    | nil =>
        intro c hc
        cases hc
    | cons d rest =>
        rw [hs] at hstart
        rw [trimEnd_solid (hstart d rfl)]
        exact hstart
  · unfold trim trimEnd
    rw [List.getLast?_reverse]
    exact stop_dropWhile isBlank _

theorem removeBlanks_of_blanks {s : List Char} (h : ∀ c ∈ s, isBlank c = true) :
    removeBlanks s = [] :=
  List.filter_eq_nil_iff.mpr (by simpa using h)

theorem removeBlanks_trim (s : List Char) : removeBlanks (trim s) = removeBlanks s := by
  obtain ⟨lead, trail, hlead, htrail, hs⟩ := exists_trim s
  conv_rhs => rw [hs]
  rw [removeBlanks_append, removeBlanks_append, removeBlanks_of_blanks hlead,
    removeBlanks_of_blanks htrail, List.nil_append, List.append_nil]

theorem flatten_blankGroups (s : List Char) : (blankGroups s).flatten = removeBlanks s := by
  have hsplit : (splitWhere isBlank s).flatten = removeBlanks s := by
    induction s with
    | nil => rfl
    | cons c s ih =>
        unfold removeBlanks at ih ⊢
        by_cases hc : isBlank c = true
        · rw [splitWhere, if_pos hc, List.flatten_cons, List.nil_append, ih,
            List.filter_cons_of_neg (by simp [hc])]
        · rw [splitWhere, if_neg hc, List.filter_cons_of_pos (by simp [hc]), ← ih]
          obtain ⟨g, gs, hgs⟩ := List.exists_cons_of_ne_nil (splitWhere_ne_nil isBlank s)
          rw [hgs]
          rfl
  rw [← hsplit, blankGroups]
  exact List.flatten_filter_not_isEmpty

end OpenQasm.Text

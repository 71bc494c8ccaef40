import OpenQasm.Proofs.Source.Commands
import OpenQasm.Proofs.Source.Statements

/-!
# Lines as text

The texts that stand in a line of a program, names, elements of registers, literals and the fixed
parameters, have no separator inside. So a line is a sequence of words without a semicolon, and
with at most the one slash of a fixed parameter it holds no comment.
-/
namespace OpenQasm.Source

open OpenQasm.Text

/-- Characters that separate nothing in a program: those of numbers and of indices, and the
slash. -/
def isSolid (c : Char) : Bool :=
  Number.isNumberChar c || c == '[' || c == ']' || c == '/'

/-- A text of such characters. -/
structure IsSolid (w : List Char) : Prop where
  ne_nil : w ≠ []
  solid : ∀ c ∈ w, isSolid c = true

theorem isSolid_of_isNameChar {c : Char} (h : isNameChar c = true) : isSolid c = true := by
  simp [isSolid, Number.isNumberChar, h]

theorem isSolid_separators {c : Char} (h : isSolid c = true) :
    isBlank c = false ∧ (c == ',') = false ∧ (c == '(' || c == ')') = false ∧
      (c == ';') = false := by
  simp only [isSolid, Number.isNumberChar, Bool.or_eq_true, beq_iff_eq] at h
  rcases h with ((((((hname | rfl) | rfl) | rfl) | rfl) | rfl) | rfl)
  · have hne (s : Char) (hs : isNameChar s = false) : (c == s) = false := by
      rw [← Bool.not_eq_true, beq_iff_eq]
      rintro rfl
      rw [hname] at hs
      cases hs
    exact ⟨isBlank_of_isNameChar hname, hne _ (by decide),
      by rw [hne '(' (by decide), hne ')' (by decide)]; rfl, hne _ (by decide)⟩
  all_goals decide

theorem IsSolid.isArgument {w : List Char} (h : IsSolid w) : IsArgument w where
  ne_nil := h.ne_nil
  no_blank := fun c hc => (isSolid_separators (h.solid c hc)).1
  no_comma := fun c hc => (isSolid_separators (h.solid c hc)).2.1
  no_bracket := fun c hc => (isSolid_separators (h.solid c hc)).2.2.1

theorem IsSolid.unended {w : List Char} (h : IsSolid w) : ∀ c ∈ w, (c == ';') = false :=
  fun c hc => (isSolid_separators (h.solid c hc)).2.2.2

theorem isSolid_name {name : List Char} (h : isName name = true) : IsSolid name where
  ne_nil := by
    rintro rfl
    cases h
  solid := fun c hc => isSolid_of_isNameChar (isName_chars h c hc)

theorem isSolid_literal {x : Float} (hx : x.isFinite = true) :
    IsSolid (Number.literal x).toList where
  ne_nil := Number.literal_ne_nil hx
  solid := by
    intro c hc
    simp [isSolid, Number.isNumberChar_of_mem_literal x c hc]

theorem isSolid_element {name : String} (h : isName name.toList = true) (x : Float) :
    IsSolid (element name x).toList where
  ne_nil := by simp [toList_element]
  solid := by
    rw [toList_element]
    intro c hc
    simp only [List.mem_append, List.mem_cons, List.not_mem_nil, or_false] at hc
    rcases hc with hc | rfl | hc | rfl
    · exact isSolid_of_isNameChar (isName_chars h c hc)
    · decide
    · simp [isSolid, Number.isNumberChar_of_mem_chars x c hc]
    · decide

theorem no_slash_of_isNumberChar {w : List Char} (h : ∀ c ∈ w, Number.isNumberChar c = true) :
    w.count '/' = 0 := by
  rw [List.count_eq_zero]
  intro hmem
  exact absurd (h _ hmem) (by decide)

theorem no_slash_literal (x : Float) : (Number.literal x).toList.count '/' = 0 :=
  no_slash_of_isNumberChar (Number.isNumberChar_of_mem_literal x)

theorem no_slash_name {name : List Char} (h : isName name = true) : name.count '/' = 0 :=
  no_slash_of_isNumberChar (fun c hc => by simp [Number.isNumberChar, isName_chars h c hc])

theorem no_slash_element {name : String} (h : isName name.toList = true) (x : Float) :
    (element name x).toList.count '/' = 0 := by
  have hx := no_slash_of_isNumberChar (Number.isNumberChar_of_mem_chars x)
  rw [toList_element]
  simp [no_slash_name h, hx]

theorem count_intercalate {s c : Char} (h : s ≠ c) (ws : List (List Char)) :
    (List.intercalate [s] ws).count c = ws.flatten.count c := by
  induction ws with
  | nil => rfl
  | cons w ws ih =>
      cases ws with
      | nil => simp
      | cons v ws =>
          have hs : [s].count c = 0 := by simp [h]
          rw [List.intercalate_cons_cons, List.flatten_cons, List.count_append, List.count_append,
            List.count_append, ih, hs, Nat.add_zero]

theorem plainLine_words (ws : List (List Char)) (hne : ws ≠ []) (hws : ∀ w ∈ ws, IsWord w)
    (hend : ∀ w ∈ ws, ∀ c ∈ w, (c == ';') = false) (hslash : ws.flatten.count '/' ≤ 1) :
    PlainLine (List.intercalate [' '] ws) where
  words := ⟨ws, hne, hws, rfl⟩
  unended := by
    intro c hc
    rcases mem_intercalate hc with rfl | ⟨w, hw, hc⟩
    · decide
    · exact hend w hw c hc
  slashes := by
    rw [count_intercalate (by decide)]
    exact hslash

theorem plainLine_gateText {mnemonic : List Char} {parameters operands : List (List Char)}
    (hname : isName mnemonic = true) (hparameters : ∀ w ∈ parameters, IsSolid w)
    (hne : operands ≠ []) (hoperands : ∀ w ∈ operands, IsSolid w)
    (hslash : parameters.flatten.count '/' + operands.flatten.count '/' ≤ 1) :
    PlainLine (gateText mnemonic parameters operands) := by
  have hcomma {ws : List (List Char)} (hws : ∀ w ∈ ws, IsSolid w) :
      ∀ c ∈ List.intercalate [','] ws, isBlank c = false ∧ (c == ';') = false := by
    intro c hc
    rcases mem_intercalate hc with rfl | ⟨w, hw, hc⟩
    · decide
    · exact ⟨(hws w hw).isArgument.no_blank c hc, (hws w hw).unended c hc⟩
  obtain ⟨first, hfirst⟩ : ∃ first, first = mnemonic ++ (if parameters = [] then []
      else '(' :: (List.intercalate [','] parameters ++ [')'])) := ⟨_, rfl⟩
  have hchars : ∀ c ∈ first, isBlank c = false ∧ (c == ';') = false := by
    rw [hfirst]
    refine forall_mem_application (fun c hc => ?_) (hcomma hparameters) (by decide) (by decide)
    have := isSolid_separators (isSolid_of_isNameChar (isName_chars hname c hc))
    exact ⟨this.1, this.2.2.2⟩
  have hcount : first.count '/' = parameters.flatten.count '/' := by
    rw [hfirst, List.count_append, no_slash_name hname]
    by_cases hnil : parameters = []
    · simp [hnil]
    · simp [hnil, count_intercalate]
  have hwords : ∀ w ∈ [first, List.intercalate [','] operands],
      IsWord w ∧ ∀ c ∈ w, (c == ';') = false := by
    intro w hw
    rcases List.mem_pair.mp hw with rfl | rfl
    · refine ⟨⟨?_, fun c hc => (hchars c hc).1⟩, fun c hc => (hchars c hc).2⟩
      rw [hfirst]
      simp [(isSolid_name hname).ne_nil]
    · exact ⟨⟨intercalate_ne_nil hne (fun w hw => (hoperands w hw).isArgument),
        fun c hc => (hcomma hoperands c hc).1⟩, fun c hc => (hcomma hoperands c hc).2⟩
  have hline := plainLine_words _ (List.cons_ne_nil _ _) (fun w hw => (hwords w hw).1)
    (fun w hw => (hwords w hw).2) (by simpa [hcount, count_intercalate] using hslash)
  unfold gateText
  rw [← hfirst]
  simpa [List.intercalate_cons_cons] using hline

theorem toList_text_apply (mnemonic : String) (parameters operands : List String) :
    (Line.apply mnemonic parameters operands).text.toList =
      gateText mnemonic.toList (parameters.map String.toList) (operands.map String.toList) := by
  unfold Line.text gateText
  rw [String.toList_append, String.toList_append, toList_join]
  cases parameters with
  | nil => simp
  | cons p parameters => simp [toList_join]

theorem toList_text_measure (source target : String) :
    (Line.measure source target).text.toList =
      "measure".toList ++ ' ' :: (source.toList ++ ' ' :: '-' :: '>' :: ' ' :: target.toList) := by
  simp [Line.text]

theorem toList_text_declare (name : String) (length : Float) :
    (Line.declare name length).text.toList =
      "creg".toList ++ ' ' :: (element name length).toList := by
  simp [Line.text]

theorem plainLine_measure {source target : List Char} (hsource : IsSolid source)
    (htarget : IsSolid target) (hcount : source.count '/' = 0) (hcount' : target.count '/' = 0) :
    PlainLine ("measure".toList ++
      ' ' :: (source ++ ' ' :: '-' :: '>' :: ' ' :: target)) := by
  have hwords : ∀ w ∈ ["measure".toList, source, ['-', '>'], target],
      IsWord w ∧ ∀ c ∈ w, (c == ';') = false := by
    have hkeyword : IsSolid "measure".toList := isSolid_name rfl
    intro w hw
    simp only [List.mem_cons, List.not_mem_nil, or_false] at hw
    rcases hw with rfl | rfl | rfl | rfl
    · exact ⟨hkeyword.isArgument.isWord, hkeyword.unended⟩
    · exact ⟨hsource.isArgument.isWord, hsource.unended⟩
    · exact ⟨⟨List.cons_ne_nil _ _, by simp; decide⟩, by simp⟩
    · exact ⟨htarget.isArgument.isWord, htarget.unended⟩
  have hline := plainLine_words _ (List.cons_ne_nil _ _) (fun w hw => (hwords w hw).1)
    (fun w hw => (hwords w hw).2) (by simp [hcount, hcount'])
  simpa [List.intercalate_cons_cons] using hline

theorem plainLine_declare {keyword name : List Char} (hkeyword : isName keyword = true)
    (hname : IsSolid name) (hcount : name.count '/' = 0) :
    PlainLine (keyword ++ ' ' :: name) := by
  have hwords : ∀ w ∈ [keyword, name], IsSolid w := by
    intro w hw
    rcases List.mem_pair.mp hw with rfl | rfl
    · exact isSolid_name hkeyword
    · exact hname
  have hline := plainLine_words _ (List.cons_ne_nil _ _)
    (fun w hw => (hwords w hw).isArgument.isWord) (fun w hw => (hwords w hw).unended)
    (by simp [no_slash_name hkeyword, hcount])
  simpa [List.intercalate_cons_cons] using hline

theorem plainLine_version : PlainLine "OPENQASM 2.0".toList :=
  plainLine_words ["OPENQASM".toList, "2.0".toList] (by simp) (by simp [IsWord]; decide)
    (by simp) (by decide)

end OpenQasm.Source

import OpenQasm.Line
import OpenQasm.Proofs.Source.Arguments
import OpenQasm.Proofs.Source.Spelling

/-!
# Commands of written lines

The lines of a program are read as the commands they were written for: a declaration with its name
and size, a measurement with its two sides, a gate with its mnemonic, its parameters and its
operands. A line is told by its first word, so only a gate whose mnemonic is a keyword would be
taken for something else.
-/
namespace OpenQasm.Source

open OpenQasm.Text

theorem toList_element (register : String) (x : Float) :
    (element register x).toList = register.toList ++ '[' :: (Number.chars x ++ [']']) := by
  unfold element Number.text
  simp

theorem isElement_digits {name : List Char} (hname : isName name = true) (n : ℕ) :
    IsElement (name ++ '[' :: (Decimal.digits n ++ [']'])) (String.ofList name) n := by
  have h := @IsElement.intro (String.ofList name) [] [] (Decimal.digits n) []
    (by rwa [String.toList_ofList]) (List.forall_mem_nil _) (List.forall_mem_nil _)
    (Decimal.digits_ne_nil n) (fun c => Decimal.isDigit_of_mem_digits) (List.forall_mem_nil _)
  rwa [String.toList_ofList, Decimal.ofDigits_digits] at h

theorem indexed?_element {name : List Char} (hname : isName name = true) (n : ℕ) :
    indexed? (name ++ '[' :: (Decimal.digits n ++ [']'])) =
      some (String.ofList name, Float.ofNat n) :=
  (isElement_digits hname n).indexed?_eq

theorem isBlank_space : ∀ c ∈ [' '], isBlank c = true := by
  intro c hc
  rw [List.mem_singleton.mp hc]
  decide

theorem ofText_declare (isQubit : Bool) {name : List Char} (hname : isName name = true) (n : ℕ) :
    Command.ofText ((if isQubit then "qreg" else "creg").toList ++
        ' ' :: (name ++ '[' :: (Decimal.digits n ++ [']']))) =
      .declare isQubit (String.ofList name) (Float.ofNat n) := by
  have h := ofText_declaration isQubit (List.cons_ne_nil ' ' []) isBlank_space
    (isElement_digits hname n)
  rwa [List.singleton_append] at h

/-- A measurement is read as it was written, if its source has no minus sign. -/
theorem ofText_measure {source target : List Char} (hsource : IsWord source)
    (hminus : ∀ c ∈ source, c ≠ '-') (htarget : IsWord target) :
    Command.ofText ("measure".toList ++
        ' ' :: (source ++ ' ' :: '-' :: '>' :: ' ' :: target)) = .measure source target := by
  obtain ⟨hsne, hsblank⟩ := hsource
  obtain ⟨htne, htblank⟩ := htarget
  have hside : IsSide source :=
    ⟨hsne, fun c hc => hsblank c (List.mem_of_mem_head? hc),
      fun c hc => hsblank c (List.mem_of_mem_getLast? hc), hminus⟩
  have h := ofText_measurement (List.cons_ne_nil ' ' []) isBlank_space isBlank_space isBlank_space
    hside htne (fun c hc => htblank c (List.mem_of_mem_head? hc))
  rwa [List.singleton_append, List.singleton_append, List.singleton_append] at h

/-- A parameter or an operand that can stand between commas and in parentheses. -/
structure IsArgument (w : List Char) : Prop where
  ne_nil : w ≠ []
  no_blank : ∀ c ∈ w, isBlank c = false
  no_comma : ∀ c ∈ w, (c == ',') = false
  no_bracket : ∀ c ∈ w, (c == '(' || c == ')') = false

theorem IsArgument.isWord {w : List Char} (h : IsArgument w) : IsWord w :=
  ⟨h.ne_nil, h.no_blank⟩

theorem IsArgument.isNested {w : List Char} (h : IsArgument w) : IsNested w where
  trimmed := trim_of_no_blanks h.no_blank
  balanced :=
    { nonneg := fun _ hb => (depth_of_no_brackets (fun c hc => h.no_bracket c (hb.subset hc))).ge
      closed := depth_of_no_brackets h.no_bracket }
  inside := fun _ hb => absurd (h.no_comma ',' (hb.subset (by simp))) (by decide)

theorem no_bracket_intercalate {ws : List (List Char)} (h : ∀ w ∈ ws, IsArgument w) :
    ∀ c ∈ List.intercalate [','] ws, (c == '(' || c == ')') = false := by
  intro c hc
  rcases mem_intercalate hc with rfl | ⟨w, hw, hc⟩
  · decide
  · exact (h w hw).no_bracket c hc

theorem no_blank_intercalate {ws : List (List Char)} (h : ∀ w ∈ ws, IsArgument w) :
    ∀ c ∈ List.intercalate [','] ws, isBlank c = false := by
  intro c hc
  rcases mem_intercalate hc with rfl | ⟨w, hw, hc⟩
  · decide
  · exact (h w hw).no_blank c hc

theorem intercalate_ne_nil {ws : List (List Char)} (hne : ws ≠ []) (h : ∀ w ∈ ws, IsArgument w) :
    List.intercalate [','] ws ≠ [] := by
  obtain ⟨w, ws, rfl⟩ := List.exists_cons_of_ne_nil hne
  have hw := (h w (.head _)).ne_nil
  cases ws <;> simp [List.intercalate_cons_cons, hw]

theorem map_trim_arguments {ws : List (List Char)} (h : ∀ w ∈ ws, IsArgument w) :
    ws.map trim = ws :=
  calc ws.map trim = ws.map id :=
        List.map_congr_left (fun w hw => trim_of_no_blanks (h w hw).no_blank)
    _ = ws := List.map_id ws

theorem splitAtLastClosing?_eq (before after : List Char) (h : ∀ c ∈ after, c ≠ ')') :
    splitAtLastClosing? (before ++ ')' :: after) = some (before, after) := by
  have hrev : (before ++ ')' :: after).reverse = after.reverse ++ ')' :: before.reverse := by simp
  have hall : ∀ c ∈ after.reverse, (c != ')') = true := by
    intro c hc
    simpa using h c (List.mem_reverse.mp hc)
  unfold splitAtLastClosing?
  rw [hrev, List.dropWhile_append_of_pos hall, List.takeWhile_append_of_pos hall]
  simp

theorem splitArguments_intercalate {ws : List (List Char)} (hne : ws ≠ [])
    (h : ∀ w ∈ ws, IsArgument w) : splitArguments (List.intercalate [','] ws) = ws :=
  splitArguments_surrounded hne (fun w hw => (h w hw).isNested)
    (List.forall₂_same.mpr (fun w _ => .refl w))

theorem operands?_intercalate {ws : List (List Char)} (hne : ws ≠ [])
    (h : ∀ w ∈ ws, IsArgument w) : operands? (' ' :: List.intercalate [','] ws) = some ws := by
  have htrim : trimStart (' ' :: List.intercalate [','] ws) = List.intercalate [','] ws := by
    rw [trimStart, List.dropWhile_cons_of_pos (by decide)]
    exact trimStart_of_head (fun c hc => no_blank_intercalate h c (List.mem_of_mem_head? hc))
  have hempty : (List.intercalate [','] ws).isEmpty = false := by
    simpa using intercalate_ne_nil hne h
  have hbracket : (List.intercalate [','] ws).any (fun c => c == '(' || c == ')') = false := by
    rw [List.any_eq_false]
    intro c hc
    simp [no_bracket_intercalate h c hc]
  have hhead : (' ' :: List.intercalate [','] ws).head?.any isBlank = true := by
    simp [show isBlank ' ' = true by decide]
  unfold operands?
  dsimp only
  rw [htrim, hempty, hbracket, hhead, splitWhere_intercalate (c := ',') rfl hne
    (fun w hw => (h w hw).no_comma), map_trim_arguments h]
  rfl

/-- A gate with its parameters in parentheses and its operands. -/
def gateText (mnemonic : List Char) (parameters operands : List (List Char)) : List Char :=
  mnemonic ++
    (if parameters = [] then [] else '(' :: (List.intercalate [','] parameters ++ [')'])) ++
    ' ' :: List.intercalate [','] operands

theorem application?_gateText {mnemonic : List Char} {parameters operands : List (List Char)}
    (hname : isName mnemonic = true) (hparameters : ∀ w ∈ parameters, IsArgument w)
    (hne : operands ≠ []) (hoperands : ∀ w ∈ operands, IsArgument w) :
    application? (gateText mnemonic parameters operands) =
      some (.apply (String.ofList mnemonic) parameters operands) := by
  have hops := operands?_intercalate hne hoperands
  unfold application? gateText
  by_cases hnil : parameters = []
  · subst hnil
    have htrim : trimStart (' ' :: List.intercalate [','] operands) =
        List.intercalate [','] operands := by
      rw [trimStart, List.dropWhile_cons_of_pos (by decide)]
      exact trimStart_of_head
        (fun c hc => no_blank_intercalate hoperands c (List.mem_of_mem_head? hc))
    rw [if_pos rfl, List.append_nil, scanName?_append hname (by intro c hc; cases hc; decide)]
    simp only [Option.bind_eq_bind, Option.bind_some]
    rw [htrim]
    split
    next inner heq =>
      have := no_bracket_intercalate hoperands '(' (by rw [heq]; exact .head _)
      exact absurd this (by decide)
    next =>
      rw [hops]
      rfl
  · have hclose := splitAtLastClosing?_eq (List.intercalate [','] parameters)
      (' ' :: List.intercalate [','] operands) (by
        intro c hc
        rcases List.mem_cons.mp hc with rfl | hc
        · decide
        · have := no_bracket_intercalate hoperands c hc
          rintro rfl
          exact absurd this (by decide))
    rw [if_neg hnil, List.append_assoc,
      scanName?_append hname (by intro c hc; cases hc; decide)]
    simp only [Option.bind_eq_bind, Option.bind_some]
    have hopening (t : List Char) : trimStart ('(' :: t) = '(' :: t :=
      trimStart_of_head (by intro c hc; cases hc; decide)
    rw [List.cons_append, hopening, List.append_assoc, List.singleton_append]
    split
    next inner heq =>
      obtain rfl := (List.cons.inj heq).2
      rw [hclose, Option.bind_some, hops, splitArguments_intercalate hnil hparameters]
      rfl
    next h => exact absurd rfl (h _)

theorem forall_mem_application {mnemonic : List Char} {parameters : List (List Char)}
    {P : Char → Prop} (hmnemonic : ∀ c ∈ mnemonic, P c)
    (hparameters : ∀ c ∈ List.intercalate [','] parameters, P c) (hopening : P '(')
    (hclosing : P ')') :
    ∀ c ∈ mnemonic ++ (if parameters = [] then []
      else '(' :: (List.intercalate [','] parameters ++ [')'])), P c := by
  refine List.forall_mem_append.mpr ⟨hmnemonic, ?_⟩
  split
  · exact List.forall_mem_nil _
  · refine List.forall_mem_cons.mpr ⟨hopening, List.forall_mem_append.mpr ⟨hparameters, ?_⟩⟩
    exact List.forall_mem_singleton.mpr hclosing

/-- A gate is read as it was written, if its mnemonic is no keyword. -/
theorem ofText_gateText {mnemonic : List Char} {parameters operands : List (List Char)}
    (hname : isName mnemonic = true) (hkeyword : ∀ k ∈ keywords, mnemonic ≠ k.toList)
    (hparameters : ∀ w ∈ parameters, IsArgument w) (hne : operands ≠ [])
    (hoperands : ∀ w ∈ operands, IsArgument w) :
    Command.ofText (gateText mnemonic parameters operands) =
      .apply (String.ofList mnemonic) parameters operands := by
  have happlication := application?_gateText hname hparameters hne hoperands
  unfold gateText at happlication ⊢
  generalize hw : mnemonic ++ (if parameters = [] then []
    else '(' :: (List.intercalate [','] parameters ++ [')'])) = w at happlication ⊢
  have hblank : ∀ c ∈ w, isBlank c = false := by
    rw [← hw]
    exact forall_mem_application (fun c hc => isBlank_of_isNameChar (isName_chars hname c hc))
      (no_blank_intercalate hparameters) rfl rfl
  have hfirst : ∀ k ∈ keywords, w ≠ k.toList := by
    intro k hk heq
    by_cases hnil : parameters = []
    · rw [if_pos hnil, List.append_nil] at hw
      exact hkeyword k hk (hw.trans heq)
    · have hbracket : ∀ k ∈ keywords, '(' ∉ k.toList := by decide +kernel
      apply hbracket k hk
      rw [← heq, ← hw, if_neg hnil]
      exact List.mem_append_right _ (.head _)
  have hword : firstWord (w ++ ' ' :: List.intercalate [','] operands) = w :=
    firstWord_append hblank (List.cons_ne_nil ' ' []) isBlank_space _
  rw [← hword] at hfirst
  have hnone {k : String} (hk : k ∈ keywords) := afterKeyword?_of_ne hk (hfirst k hk)
  rw [ofText_of_firstWord (hfirst _ (by simp [keywords])) (hfirst _ (by simp [keywords]))
    (hfirst _ (by simp [keywords])), happlication]
  unfold declaration? measurement?
  rw [hnone (by simp [keywords]), hnone (by simp [keywords]), hnone (by simp [keywords])]
  rfl

end OpenQasm.Source

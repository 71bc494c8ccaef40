import OpenQasm.Proofs.Source.Comments
import OpenQasm.Proofs.Source.Failures

/-!
# The statement that an error points at

A source without its comments is a sequence of parts, each ended by a semicolon, and a last part
that is not. A part is blank or has a statement after its blanks, and the line of the statement is
counted from the start of the source up to there. The statement that is reported is the first that
is rejected. What comes after its semicolon is not looked at, even where it changes which text on
that line is a comment.
-/
namespace OpenQasm.Source

open OpenQasm.Text

/-- A part of a source between semicolons: blanks, and then nothing or a text that starts with
another character. -/
structure IsPart (gap body : List Char) : Prop where
  blank : ∀ c ∈ gap, isBlank c = true
  solid : ∀ c ∈ body.head?, isBlank c = false
  unended : ∀ c ∈ body, (c == ';') = false

/-- The statement in a part, on the line that the breaks before its first character tell. -/
def statementAt? (before gap body : List Char) : Option Statement :=
  if body = [] then none
  else some ⟨1 + newlines (before ++ gap), collapseBlanks (trimEnd body)⟩

/-- A text of parts that are ended by semicolons, and the statements in them. -/
inductive Terminated : List Char → List Statement → Prop
  | nil : Terminated [] []
  | snoc {before gap body : List Char} {sts : List Statement} (h : Terminated before sts)
      (hpart : IsPart gap body) :
      Terminated (before ++ (gap ++ body) ++ [';']) (sts ++ (statementAt? before gap body).toList)

theorem statementAt?_eq_some {before gap body : List Char} {st : Statement}
    (h : statementAt? before gap body = some st) :
    body ≠ [] ∧ st = ⟨1 + newlines (before ++ gap), collapseBlanks (trimEnd body)⟩ := by
  unfold statementAt? at h
  split_ifs at h with hbody
  exact ⟨hbody, (Option.some.inj h).symm⟩

theorem statementAt?_eq_none {before gap body : List Char}
    (h : statementAt? before gap body = none) : body = [] := by
  by_contra hbody
  rw [statementAt?, if_neg hbody] at h
  cases h

theorem exists_part {s : List Char} (h : ∀ c ∈ s, (c == ';') = false) :
    ∃ gap body, s = gap ++ body ∧ IsPart gap body := by
  obtain ⟨gap, hgap, hs⟩ := exists_trimStart s
  refine ⟨gap, trimStart s, hs, hgap, stop_dropWhile isBlank s, ?_⟩
  intro c hc
  exact h c (hs ▸ List.mem_append_right _ hc)

theorem isBlank_ne_semicolon {c : Char} (h : isBlank c = true) : (c == ';') = false := by
  rw [← Bool.not_eq_true, beq_iff_eq]
  rintro rfl
  exact absurd h (by decide)

namespace IsPart

variable {gap body : List Char}

theorem no_semicolon (h : IsPart gap body) : ∀ c ∈ gap ++ body, (c == ';') = false := by
  intro c hc
  rcases List.mem_append.mp hc with hc | hc
  · exact isBlank_ne_semicolon (h.blank c hc)
  · exact h.unended c hc

theorem ofPart?_eq (h : IsPart gap body) (before : List Char) :
    Statement.ofPart? (1 + newlines before) (gap ++ body) = statementAt? before gap body := by
  have hlead := (takeWhile_append_stop h.blank (takeWhile_stop h.solid)).1
  have htrim : trim (gap ++ body) = trimEnd body := by
    rw [trim, trimStart_append h.blank h.solid]
  have hempty : (collapseBlanks (trimEnd body)).isEmpty = true ↔ body = [] := by
    cases body with
    | nil => decide
    | cons c body =>
        have hc := h.solid c rfl
        simp [trimEnd_solid hc, collapseBlanks, collapseFrom, hc]
  unfold Statement.ofPart? statementAt?
  dsimp only
  rw [htrim, hlead]
  simp only [hempty]
  rw [newlines, newlines, newlines, List.countP_append, Nat.add_assoc]

end IsPart

theorem statementsFrom_cons (line : ℕ) (part : List Char) {parts : List (List Char)}
    (h : parts ≠ []) :
    statementsFrom line (part :: parts) =
      ((Statement.ofPart? line part).toList ++ (statementsFrom (line + newlines part) parts).1,
        (statementsFrom (line + newlines part) parts).2) := by
  obtain ⟨next, parts, rfl⟩ := List.exists_cons_of_ne_nil h
  rfl

namespace Terminated

variable {before : List Char} {sts : List Statement}

/-- The statements of a terminated text come first, and the lines of the others are counted on. -/
theorem statementsFrom_append (h : Terminated before sts) (rest : List Char) :
    statementsFrom 1 (splitWhere (· == ';') (before ++ rest)) =
      (sts ++ (statementsFrom (1 + newlines before) (splitWhere (· == ';') rest)).1,
        (statementsFrom (1 + newlines before) (splitWhere (· == ';') rest)).2) := by
  induction h generalizing rest with
  | nil => rfl
  | @snoc before gap body sts h hpart ih =>
      have hlines : 1 + newlines before + newlines (gap ++ body) =
          1 + newlines (before ++ (gap ++ body) ++ [';']) := by
        simp [newlines, Nat.add_assoc]
      rw [List.append_assoc, List.append_assoc, ih, List.singleton_append,
        splitWhere_append_cons hpart.no_semicolon rfl,
        statementsFrom_cons _ _ (splitWhere_ne_nil _ _), hlines, hpart.ofPart?_eq,
        ← List.append_assoc, ← List.append_assoc]

/-- A statement of a terminated text stands in one of its parts, with those before it in a
terminated text of their own. -/
theorem exists_of_append_cons {earlier later : List Statement} {st : Statement}
    (h : Terminated before (earlier ++ st :: later)) :
    ∃ start gap body rest, before = start ++ (gap ++ body) ++ ';' :: rest ∧
      Terminated start earlier ∧ IsPart gap body ∧ statementAt? start gap body = some st := by
  generalize hsts : earlier ++ st :: later = sts at h
  induction h generalizing later with
  | nil => simp at hsts
  | @snoc before gap body sts h hpart ih =>
      have hinside (later : List Statement) (hsts : earlier ++ st :: later = sts) :
          ∃ start gap' body' rest,
            before ++ (gap ++ body) ++ [';'] = start ++ (gap' ++ body') ++ ';' :: rest ∧
            Terminated start earlier ∧ IsPart gap' body' ∧
            statementAt? start gap' body' = some st := by
        obtain ⟨start, gap', body', rest, rfl, hresult⟩ := ih hsts
        exact ⟨start, gap', body', rest ++ (gap ++ body) ++ [';'], by simp, hresult⟩
      cases hlast : statementAt? before gap body with
      | none => exact hinside later (by simpa [hlast] using hsts)
      | some last =>
          rw [hlast, Option.toList_some] at hsts
          rcases List.eq_nil_or_concat later with rfl | ⟨later, last', rfl⟩
          · -- the last part holds the statement
            obtain ⟨rfl, hst⟩ := List.append_inj' hsts rfl
            cases hst
            exact ⟨before, gap, body, [], rfl, h, hpart, hlast⟩
          · refine hinside later ?_
            rw [List.concat_eq_append, ← List.cons_append, ← List.append_assoc] at hsts
            exact (List.append_inj' hsts rfl).1

theorem blank_of_nil (h : Terminated before []) : ∀ c ∈ before, isBlank c = true ∨ c = ';' := by
  generalize hsts : ([] : List Statement) = sts at h
  induction h with
  | nil => simp
  | @snoc before gap body sts h hpart ih =>
      obtain ⟨rfl, hlast⟩ := List.append_eq_nil_iff.mp hsts.symm
      obtain rfl := statementAt?_eq_none (Option.toList_eq_nil_iff.mp hlast)
      intro c hc
      simp only [List.append_nil, List.mem_append, List.mem_singleton] at hc
      rcases hc with (hc | hc) | hc
      · exact ih rfl c hc
      · exact .inl (hpart.blank c hc)
      · exact .inr hc

end Terminated

theorem exists_terminated (s : List Char) :
    ∃ before sts gap body, s = before ++ (gap ++ body) ∧ Terminated before sts ∧
      IsPart gap body := by
  induction s using List.reverseRecOn with
  | nil => exact ⟨[], [], [], [], rfl, .nil, by simp, by simp, by simp⟩
  | append_singleton s c ih =>
      obtain ⟨before, sts, gap, body, rfl, hterminated, hpart⟩ := ih
      by_cases hc : (c == ';') = true
      · rw [beq_iff_eq.mp hc]
        exact ⟨_, _, [], [], by simp, hterminated.snoc hpart, by simp, by simp, by simp⟩
      · have hlonger : ∀ d ∈ gap ++ body ++ [c], (d == ';') = false := by
          intro d hd
          rcases List.mem_append.mp hd with hd | hd
          · exact hpart.no_semicolon d hd
          · rw [List.mem_singleton.mp hd]
            simpa using hc
        obtain ⟨gap', body', heq, hpart'⟩ := exists_part hlonger
        exact ⟨before, sts, gap', body', by rw [List.append_assoc, heq], hterminated, hpart'⟩

theorem statements_eq {source before gap body : List Char} {sts : List Statement}
    (hsource : stripComments source = before ++ (gap ++ body)) (h : Terminated before sts)
    (hpart : IsPart gap body) : statements source = (sts, statementAt? before gap body) := by
  unfold statements
  rw [hsource, h.statementsFrom_append, splitWhere_of_none hpart.no_semicolon]
  simp only [statementsFrom, List.append_nil, hpart.ofPart?_eq]

/-- A semicolon before which no comment starts keeps its place, and what stands before it too,
when the line is continued. -/
theorem stripComment_continued {line u v : List Char} (t : List Char)
    (h : stripComment line = u ++ ';' :: v) : ∃ v', stripComment (line ++ t) = u ++ ';' :: v' := by
  induction line generalizing u with
  | nil => simp [stripComment] at h
  | cons c cs ih =>
      rw [stripComment] at h
      split_ifs at h with hcomment
      · simp at h
      · cases u with
        | nil =>
            obtain ⟨rfl, -⟩ := List.cons.inj h
            exact ⟨stripComment (cs ++ t), by simp [stripComment]⟩
        | cons d u =>
            rw [List.cons_append, List.cons.injEq] at h
            obtain ⟨rfl, h⟩ := h
            obtain ⟨v', hv'⟩ := ih h
            refine ⟨v', ?_⟩
            rw [List.cons_append, stripComment, if_neg, hv', List.cons_append]
            -- more text does not remove a line end, nor does it change the next character
            intro hcomment'
            obtain ⟨e, cs, rfl⟩ : ∃ e cs', cs = e :: cs' := by
              cases cs with
              | nil => simp [stripComment] at h
              | cons e cs => exact ⟨e, cs, rfl⟩
            have hnext : (e :: cs ++ t).head? = (e :: cs).head? := rfl
            rw [hnext, List.any_append, Bool.not_or, ← Bool.and_assoc,
              Bool.and_eq_true] at hcomment'
            exact hcomment hcomment'.1

theorem stripComments_of_unbroken {line : List Char} (h : ∀ c ∈ line, (c == '\n') = false) :
    stripComments line = stripComment line := by
  simp [stripComments, splitWhere_of_none h]

theorem stripComments_break {line : List Char} (h : ∀ c ∈ line, (c == '\n') = false)
    (rest : List Char) :
    stripComments (line ++ '\n' :: rest) = stripComment line ++ '\n' :: stripComments rest := by
  obtain ⟨first, others, hlines⟩ :=
    List.exists_cons_of_ne_nil (splitWhere_ne_nil (· == '\n') rest)
  unfold stripComments
  rw [splitWhere_append_cons h rfl, hlines, List.map_cons, List.map_cons,
    List.intercalate_cons_cons]
  simp

theorem exists_line (s : List Char) :
    (∀ c ∈ s, (c == '\n') = false) ∨
      ∃ line rest, s = line ++ '\n' :: rest ∧ ∀ c ∈ line, (c == '\n') = false := by
  induction s with
  | nil => exact .inl (by simp)
  | cons c s ih =>
      by_cases hc : c = '\n'
      · exact .inr ⟨[], s, by rw [hc]; rfl, by simp⟩
      · have hc : (c == '\n') = false := by simpa using hc
        rcases ih with h | ⟨line, rest, rfl, h⟩
        · exact .inl (List.forall_mem_cons.mpr ⟨hc, h⟩)
        · exact .inr ⟨c :: line, rest, rfl, List.forall_mem_cons.mpr ⟨hc, h⟩⟩

/-- Up to a semicolon that is not in a comment, a source stays the same without its comments when
text is appended to it. -/
theorem stripComments_append {s u v : List Char} (t : List Char)
    (h : stripComments s = u ++ ';' :: v) : ∃ v', stripComments (s ++ t) = u ++ ';' :: v' := by
  induction hn : s.length using Nat.strong_induction_on generalizing s u with
  | _ n ih =>
    rcases exists_line s with hs | ⟨line, rest, rfl, hline⟩
    · -- the last line goes on up to the first break of the text
      rw [stripComments_of_unbroken hs] at h
      rcases exists_line t with ht | ⟨more, rest, rfl, hmore⟩
      · obtain ⟨v', hv'⟩ := stripComment_continued t h
        refine ⟨v', ?_⟩
        rw [stripComments_of_unbroken, hv']
        exact List.forall_mem_append.mpr ⟨hs, ht⟩
      · obtain ⟨v', hv'⟩ := stripComment_continued more h
        refine ⟨v' ++ '\n' :: stripComments rest, ?_⟩
        rw [← List.append_assoc, stripComments_break, hv']
        · simp
        · exact List.forall_mem_append.mpr ⟨hs, hmore⟩
    · rw [stripComments_break hline] at h
      rw [List.append_assoc, List.cons_append, stripComments_break hline]
      rcases List.append_eq_append_iff.mp h with ⟨w, rfl, hw⟩ | ⟨w, hw, hv⟩
      · -- the semicolon stands after the break
        cases w with
        | nil => simp at hw
        | cons c w =>
            rw [List.cons_append, List.cons.injEq] at hw
            obtain ⟨rfl, hw⟩ := hw
            obtain ⟨v', hv'⟩ := ih rest.length (by simp at hn; omega) hw rfl
            exact ⟨v', by rw [hv']; simp⟩
      · cases w with
        | nil => simp at hv
        | cons c w =>
            obtain ⟨rfl, hv⟩ := List.cons.inj hv
            exact ⟨w ++ '\n' :: stripComments (rest ++ t), by rw [hw]; simp⟩

namespace Scope

theorem Advances.hasVersion {s s' : Scope} {clause : Clause} (h : s.Advances clause s')
    (hversion : s.hasVersion = true) : s'.hasVersion = true := by
  cases h with
  | version => rfl
  | _ => exact hversion

theorem hasVersion_of_step {s s' : Scope} {st : Statement} (h : s.step st = .ok s') :
    s'.hasVersion = true := by
  have houtcome := s.step_outcome st
  rw [h] at houtcome
  cases houtcome with
  | advances hadvances =>
      cases hs : s.hasVersion with
      | true => exact hadvances.hasVersion hs
      | false =>
          unfold step at h
          simp only [hs, Bool.false_eq_true, if_false] at h
          split at h
          · split_ifs at h
            cases h
            rfl
          · cases h

theorem line_of_step_error {s : Scope} {st : Statement} {line : ℕ} {fault : Fault}
    (h : s.step st = .error (.at line fault)) : line = st.line := by
  have houtcome := s.step_outcome st
  rw [h] at houtcome
  cases houtcome
  rfl

theorem hasVersion_of_run {s s' : Scope} {sts : List Statement} (h : s.run sts = .ok s')
    (hversion : s.hasVersion = true ∨ sts ≠ []) : s'.hasVersion = true := by
  induction sts generalizing s with
  | nil =>
      cases h
      exact hversion.resolve_right (by simp)
  | cons st sts ih =>
      rw [run] at h
      cases hs : s.step st with
      | error e =>
          rw [hs] at h
          cases h
      | ok s₁ =>
          rw [hs] at h
          exact ih h (.inl (hasVersion_of_step hs))

end Scope

/-- Where all statements are accepted and there is no version, there is no statement. -/
theorem Terminated.blank_of_no_version {before : List Char} {sts : List Statement} {s : Scope}
    (h : Terminated before sts) (hrun : Scope.empty.run sts = .ok s)
    (hversion : ¬ s.hasVersion = true) : ∀ c ∈ before, isBlank c = true ∨ c = ';' := by
  have hsts : sts = [] := by
    by_contra hne
    exact hversion (Scope.hasVersion_of_run hrun (.inr hne))
  subst hsts
  exact h.blank_of_nil

theorem read_of_run_error {source : String} {e : Error}
    (h : Scope.empty.run (statements source.toList).1 = .error e) : read source = .error e := by
  unfold read
  dsimp only
  rw [h]
  rfl

/-- Reading fails as soon as a statement is rejected, whatever follows its semicolon. -/
theorem read_of_rejected {source : String} {before gap body rest : List Char}
    {earlier : List Statement} {st : Statement} {s : Scope} {e : Error}
    (hsource : stripComments source.toList = before ++ (gap ++ body) ++ ';' :: rest)
    (hterminated : Terminated before earlier) (hpart : IsPart gap body)
    (hst : statementAt? before gap body = some st) (hrun : Scope.empty.run earlier = .ok s)
    (hstep : s.step st = .error e) : read source = .error e := by
  apply read_of_run_error
  have hstatements : (statements source.toList).1 = earlier ++ st ::
      (statementsFrom (1 + newlines (before ++ (gap ++ body) ++ [';']))
        (splitWhere (· == ';') rest)).1 := by
    have happend := (hterminated.snoc hpart).statementsFrom_append rest
    rw [hst, List.append_assoc _ [';'], List.singleton_append, ← hsource] at happend
    unfold statements
    rw [happend]
    simp
  rw [hstatements, Scope.run_append, hrun]
  change s.run (st :: _) = _
  rw [Scope.run, hstep]
  rfl

/-- A program that is refused with a line has no statement at all, or the line is that of the first
character of a statement of the source without its comments, which keeps all line breaks. All
statements before it are accepted. The statement is not ended by a semicolon, or it is rejected and
every longer source is refused with the same line and fault. -/
theorem read_error_position {source : String} {line : ℕ} {fault : Fault}
    (h : read source = .error (.at line fault)) :
    newlines (stripComments source.toList) = newlines source.toList ∧
    ((line = 1 ∧ fault = .missingHeader ∧
        ∀ c ∈ stripComments source.toList, isBlank c = true ∨ c = ';') ∨
      ∃ before earlier s gap body after,
        stripComments source.toList = before ++ (gap ++ body) ++ after ∧
        Terminated before earlier ∧ Scope.empty.run earlier = .ok s ∧
        IsPart gap body ∧ body ≠ [] ∧ line = 1 + newlines (before ++ gap) ∧
        ((after = [] ∧
            fault = .unterminated (String.ofList (collapseBlanks (trimEnd body)))) ∨
          ∃ rest, after = ';' :: rest ∧
            s.step ⟨line, collapseBlanks (trimEnd body)⟩ = .error (.at line fault) ∧
            ∀ text, read (source ++ text) = .error (.at line fault))) := by
  refine ⟨newlines_stripComments _, ?_⟩
  obtain ⟨start, sts, lastGap, lastBody, hsource, hterminated, hlast⟩ :=
    exists_terminated (stripComments source.toList)
  have hstatements := statements_eq hsource hterminated hlast
  cases hrun : Scope.empty.run sts with
  | error e =>
      rw [read_of_run_error (by rw [hstatements]; exact hrun)] at h
      cases h
      obtain ⟨earlier, st, later, s, rfl, hearlier, hstep⟩ := Scope.exists_of_run_error hrun
      obtain ⟨before, gap, body, rest, rfl, hbefore, hpart, hst⟩ :=
        hterminated.exists_of_append_cons
      obtain ⟨hbody, rfl⟩ := statementAt?_eq_some hst
      obtain rfl := Scope.line_of_step_error hstep
      rw [List.append_assoc _ (';' :: rest), List.cons_append] at hsource
      refine .inr ⟨before, earlier, s, gap, body, _, hsource, hbefore, hearlier, hpart, hbody, rfl,
        .inr ⟨_, rfl, hstep, fun text => ?_⟩⟩
      obtain ⟨rest', hrest'⟩ := stripComments_append text.toList hsource
      rw [← String.toList_append] at hrest'
      exact read_of_rejected hrest' hbefore hpart hst hearlier hstep
  | ok s =>
      unfold read at h
      simp only [hstatements, hrun, bind, Except.bind] at h
      cases hst : statementAt? start lastGap lastBody with
      | some st =>
          obtain ⟨hbody, rfl⟩ := statementAt?_eq_some hst
          rw [hst] at h
          cases h
          exact .inr ⟨start, sts, s, lastGap, lastBody, [], by rw [hsource, List.append_nil],
            hterminated, hrun, hlast, hbody, rfl, .inl ⟨rfl, rfl⟩⟩
      | none =>
          obtain rfl := statementAt?_eq_none hst
          rw [hst] at h
          dsimp only at h
          split_ifs at h with hversion
          · cases h
          · cases h
            refine .inl ⟨rfl, rfl, fun c hc => ?_⟩
            rw [hsource, List.append_nil] at hc
            rcases List.mem_append.mp hc with hc | hc
            · exact hterminated.blank_of_no_version hrun hversion c hc
            · exact .inl (hlast.blank c hc)

/-- A gate on an unknown register is reported on the third line, also with more text after it. -/
theorem read_error_position_unknownRegister :
    read "OPENQASM 2.0; // version\n\n x q[0];" = .error (.at 3 (.unknownQubits "q")) ∧
      ∀ text, read ("OPENQASM 2.0; // version\n\n x q[0];" ++ text) =
        .error (.at 3 (.unknownQubits "q")) := by
  have hread : read "OPENQASM 2.0; // version\n\n x q[0];" =
      .error (.at 3 (.unknownQubits "q")) := by decide +kernel
  obtain ⟨-, ⟨hline, -⟩ | h⟩ := read_error_position hread
  · cases hline
  · obtain ⟨before, earlier, s, gap, body, after, -, -, -, -, -, -, ⟨-, hfault⟩ | h⟩ := h
    · cases hfault
    · obtain ⟨rest, -, -, htext⟩ := h
      exact ⟨hread, htext⟩

end OpenQasm.Source

import OpenQasm.Proofs.Source.Reading
import OpenQasm.Proofs.Source.Scopes

/-!
# How reading fails

A program that is not read is refused with a line of its source, unless a size is too large for a
number: then the circuit refuses a register of infinite length or an infinite qubit, and says
nothing about a line.
-/
namespace OpenQasm.Source

open OpenQasm.Text
open Number (isNatural isPositive infinity overflow IsCount)

theorem mem_of_mem_stripComment {c : Char} {line : List Char} (h : c ∈ stripComment line) :
    c ∈ line := by
  induction line with
  | nil => cases h
  | cons d line ih =>
      rw [stripComment] at h
      split_ifs at h with hcomment
      · cases h
      · rcases List.mem_cons.mp h with rfl | h
        · exact .head _
        · exact .tail _ (ih h)

theorem newlines_stripComments (source : List Char) :
    newlines (stripComments source) = newlines source := by
  have hlines : splitWhere (· == '\n') (stripComments source) =
      (splitWhere (· == '\n') source).map stripComment := by
    refine splitWhere_intercalate rfl ?_ ?_
    · rw [ne_eq, List.map_eq_nil_iff]
      exact splitWhere_ne_nil _ _
    · intro line hline c hc
      obtain ⟨line, hmem, rfl⟩ := List.mem_map.mp hline
      exact not_mem_splitWhere hmem c (mem_of_mem_stripComment hc)
  have hlength := congrArg List.length hlines
  rw [length_splitWhere, List.length_map, length_splitWhere] at hlength
  exact Nat.succ.inj hlength

theorem sum_newlines_splitWhere (source : List Char) :
    ((splitWhere (· == ';') source).map newlines).sum = newlines source := by
  induction source with
  | nil => rfl
  | cons c cs ih =>
      rw [splitWhere]
      by_cases hc : (c == ';') = true
      · rw [if_pos hc, List.map_cons, List.sum_cons, ih, beq_iff_eq.mp hc]
        simp [newlines]
      · rw [if_neg hc]
        cases hcut : splitWhere (· == ';') cs with
        | nil => exact absurd hcut (splitWhere_ne_nil _ _)
        | cons piece rest =>
            rw [hcut] at ih
            simp only [List.modifyHead_cons, List.map_cons, List.sum_cons, newlines,
              List.countP_cons] at ih ⊢
            omega

theorem line_ofPart? {line : ℕ} {part : List Char} {st : Statement}
    (h : Statement.ofPart? line part = some st) :
    line ≤ st.line ∧ st.line ≤ line + newlines part := by
  unfold Statement.ofPart? at h
  dsimp only at h
  split_ifs at h
  cases h
  have hle : newlines (part.takeWhile isBlank) ≤ newlines part :=
    (List.takeWhile_sublist isBlank).countP_le
  dsimp only
  omega

theorem line_statementsFrom {line : ℕ} {parts : List (List Char)} {st : Statement}
    (h : st ∈ (statementsFrom line parts).1 ∨ (statementsFrom line parts).2 = some st) :
    line ≤ st.line ∧ st.line ≤ line + (parts.map newlines).sum := by
  fun_induction statementsFrom line parts with
  | case1 line =>
      rcases h with h | h <;> cases h
  | case2 line part =>
      rcases h with h | h
      · cases h
      · simpa using line_ofPart? h
  | case3 line part rest hne sts last heq ih =>
      rw [heq] at ih
      rw [List.map_cons, List.sum_cons]
      have hlater (h : st ∈ sts ∨ last = some st) :
          line ≤ st.line ∧ st.line ≤ line + (newlines part + (rest.map newlines).sum) := by
        have := ih h
        omega
      rcases h with h | h
      · rcases List.mem_append.mp h with h | h
        · have := line_ofPart? (Option.mem_toList.mp h)
          omega
        · exact hlater (.inl h)
      · exact hlater (.inr h)

/-- Every statement of a source stands on one of its lines. -/
theorem line_statements {source : List Char} {st : Statement}
    (h : st ∈ (statements source).1 ∨ (statements source).2 = some st) :
    1 ≤ st.line ∧ st.line ≤ newlines source + 1 := by
  have hline := line_statementsFrom h
  rwa [sum_newlines_splitWhere, newlines_stripComments, Nat.add_comm] at hline

/-- What the circuit refuses because a size is too large: the length of a register, or a qubit after
registers with too many of them. -/
inductive Overflows (clauses : List Clause) : Circuit.Error → Prop
  | length {name : String} {size : ℕ} (h : .register false name size ∈ clauses)
      (hsize : overflow ≤ size) : Overflows clauses (.invalidLength name infinity)
  | qubit (h : sumFrom 0 (registers true clauses) = infinity) :
      Overflows clauses (.invalidQubit infinity)

theorem isCount_zero : IsCount 0 :=
  Number.isCount_ofNat 0

theorem overflow_le {n : ℕ} (h : ¬ Float.ofNat n < 1) (hn : isPositive (Float.ofNat n) = false) :
    overflow ≤ n := by
  by_contra hlt
  obtain ⟨hfin, k, hval⟩ := Number.isNatural_iff.mp
    (Number.isNatural_ofNat_of_lt (not_le.mp hlt))
  rw [Number.lt_iff_value hfin Number.isFinite_one, hval, Number.value_one, Nat.cast_lt_one] at h
  rw [Number.isPositive_iff.mpr ⟨hfin, k, Nat.pos_of_ne_zero h, hval⟩] at hn
  cases hn

namespace Scope

theorem Numbers.isCount {s : Scope} {clauses : List Clause} {e : String × ℕ} {q : Float}
    (h : s.Numbers e q) (hmodels : s.Models clauses) : IsCount q := by
  obtain ⟨hregister, -⟩ := h
  have hmem := Table.mem_of_get? hregister
  rw [hmodels.qubits] at hmem
  exact (isCount_of_mem_placed isCount_zero hmem).1.add (Number.isCount_ofNat _)

/-- A qubit whose number is too large comes after registers that are too large together. -/
theorem Numbers.overflows {s : Scope} {clauses : List Clause} {e : String × ℕ} {q : Float}
    (h : s.Numbers e q) (hmodels : s.Models clauses) (hq : isNatural q = false) :
    q = infinity ∧ sumFrom 0 (registers true clauses) = infinity := by
  have hcount := h.isCount hmodels
  refine ⟨hcount.resolve_left (by simp [hq]), ?_⟩
  refine (isCount_sumFrom isCount_zero _).resolve_left (fun hsum => ?_)
  obtain ⟨hregister, hinside⟩ := h
  have hmem := Table.mem_of_get? hregister
  rw [hmodels.qubits] at hmem
  obtain ⟨hoffset, hsize⟩ := isCount_of_mem_placed isCount_zero hmem
  have hnatural := hoffset.isNatural_add_ofNat hsize hinside
    (isNatural_of_mem_placed isCount_zero hsum hmem)
  rw [hnatural] at hq
  cases hq

theorem Refuses.overflows {s : Scope} {clauses after : List Clause} {clause : Clause}
    {e : Circuit.Error} (h : s.Refuses clause e) (hmodels : s.Models clauses) :
    Overflows (clauses ++ clause :: after) e := by
  cases h with
  | length hpositive hlength =>
      have hsize := overflow_le hpositive hlength
      rw [Number.ofNat_eq_infinity hsize]
      exact .length (List.mem_append_right _ (.head _)) hsize
  | defined hfree hdefined =>
      -- a name that is defined is the name of a register of bits
      obtain ⟨d, hd, hname⟩ := List.any_eq_true.mp hdefined
      rw [hmodels.definitions] at hd
      obtain ⟨r, hr, rfl⟩ := List.mem_map.mp hd
      refine absurd ?_ hfree.2
      rw [hmodels.bitKeys, ← beq_iff_eq.mp hname]
      exact List.mem_map_of_mem hr
  | qubit he hq =>
      obtain ⟨rfl, hsum⟩ := he.overflows hmodels hq
      refine .qubit ?_
      rw [registers_append, sumFrom_append, hsum, sumFrom_infinity]

end Scope

/-- What is carried out from the start fails on a line of the source, or by an overflow. -/
theorem run_error {source : String} {e : Error}
    (h : Scope.empty.run (statements source.toList).1 = .error e) :
    (∃ line f, e = .at line f ∧ 1 ≤ line ∧ line ≤ newlines source.toList + 1) ∨
      ∃ e', e = .circuit e' ∧ Overflows (clauses source) e' := by
  obtain ⟨before, st, after, s, hsts, hbefore, hstep⟩ := Scope.exists_of_run_error h
  have hmem : st ∈ (statements source.toList).1 := by
    rw [hsts]
    exact List.mem_append_right _ (.head _)
  have hclauses : clauses source = before.map (fun st => .ofText st.text) ++
      .ofText st.text :: after.map (fun st => .ofText st.text) := by
    rw [clauses, hsts, List.map_append, List.map_cons]
  have hmodels : s.Models (before.map (fun st => .ofText st.text)) :=
    Scope.run_ok_induction Scope.Models.advances Scope.models_empty hbefore
  have houtcome := s.step_outcome st
  rw [hstep] at houtcome
  cases houtcome with
  | fault f => exact .inl ⟨st.line, f, rfl, line_statements (.inl hmem)⟩
  | refuses hrefuses =>
      rw [hclauses]
      exact .inr ⟨_, rfl, hrefuses.overflows hmodels⟩

/-- Every source is read, or refused with one of its lines, or has a size that is too large for a
number. -/
theorem read_outcome (source : String) :
    (∃ result, read source = .ok result) ∨
      (∃ line f, read source = .error (.at line f) ∧ 1 ≤ line ∧
        line ≤ newlines source.toList + 1) ∨
      ∃ e, read source = .error (.circuit e) ∧ Overflows (clauses source) e := by
  cases hrun : Scope.empty.run (statements source.toList).1 with
  | error e =>
      have hread : read source = .error e := by
        unfold read
        dsimp only
        rw [hrun]
        rfl
      rcases run_error hrun with ⟨line, f, rfl, hline⟩ | ⟨e', rfl, he'⟩
      · exact .inr (.inl ⟨line, f, hread, hline⟩)
      · exact .inr (.inr ⟨e', hread, he'⟩)
  | ok s =>
      unfold read
      simp only [hrun, bind, Except.bind]
      split
      next st hlast => exact .inr (.inl ⟨_, _, rfl, line_statements (.inr hlast)⟩)
      next =>
        split_ifs
        · exact .inl ⟨_, rfl⟩
        · exact .inr (.inl ⟨1, _, rfl, le_rfl, Nat.le_add_left 1 _⟩)

def bitLine (name : List Char) (n : ℕ) : List Char :=
  "creg".toList ++ ' ' :: (name ++ '[' :: (Decimal.digits n ++ [']']))

theorem plainLine_bitLine {name : List Char} (hname : isName name = true) (n : ℕ) :
    PlainLine (bitLine name n) := by
  have hchars : ∀ c ∈ name ++ '[' :: (Decimal.digits n ++ [']']),
      isNameChar c = true ∨ c = '[' ∨ c = ']' := by
    intro c hc
    simp only [List.mem_append, List.mem_cons, List.not_mem_nil, or_false] at hc
    rcases hc with hc | rfl | hc | rfl
    · exact .inl (isName_chars hname c hc)
    · exact .inr (.inl rfl)
    · exact .inl (isNameChar_iff.mpr (.inr (Decimal.isDigit_of_mem_digits hc)))
    · exact .inr (.inr rfl)
  refine plainLine_declare rfl ⟨by simp, fun c hc => ?_⟩ (List.count_eq_zero.mpr fun hc => ?_)
  · rcases hchars c hc with h | rfl | rfl
    · exact isSolid_of_isNameChar h
    · rfl
    · rfl
  · rcases hchars _ hc with h | h | h
    · exact absurd h (by decide)
    · cases h
    · cases h

theorem read_bitLine_of_overflow {name : String} (hname : isName name.toList = true) {n : ℕ}
    (hn : overflow ≤ n) :
    read (String.ofList (program ["OPENQASM 2.0".toList, bitLine name.toList n])) =
      .error (.circuit (.invalidLength name infinity)) := by
  have hcommand : Command.ofText (bitLine name.toList n) = .declare false name infinity := by
    have h := ofText_declare false hname n
    rwa [String.ofList_toList, Number.ofNat_eq_infinity hn] at h
  have hdeclare (line : ℕ) : ({ Scope.empty with hasVersion := true } : Scope).step
      ⟨line, bitLine name.toList n⟩ = .error (.circuit (.invalidLength name infinity)) := by
    have hlarge : ¬ infinity < (1 : Float) := by decide
    have hlength : isPositive infinity = false := by rfl
    unfold Scope.step
    simp [hcommand, Scope.declare, Scope.empty, Table.contains, Table.get?, Table.empty, hlarge,
      Circuit.build, Circuit.check, hlength]
  have hplain : ∀ l ∈ ["OPENQASM 2.0".toList, bitLine name.toList n], PlainLine l := by
    intro l hl
    rcases List.mem_pair.mp hl with rfl | rfl
    · exact plainLine_version
    · exact plainLine_bitLine hname n
  obtain ⟨sts, hsts, htexts⟩ := statements_program hplain
  obtain ⟨⟨line₁, text₁⟩, rest, rfl, rfl, hrest⟩ := List.map_eq_cons_iff.mp htexts
  obtain ⟨⟨line₂, text₂⟩, rest, rfl, rfl, hrest⟩ := List.map_eq_cons_iff.mp hrest
  unfold read
  rw [String.toList_ofList, hsts]
  simp only [Scope.run, Scope.step_version, bind, Except.bind]
  rw [hdeclare]

/-- The register of `10 ^ 309` bits is refused without a line. -/
theorem read_hugeRegister :
    read (String.ofList (program ["OPENQASM 2.0".toList, bitLine "c".toList (10 ^ 309)])) =
        .error (.circuit (.invalidLength "c" infinity)) ∧
      (Error.circuit (.invalidLength "c" infinity)).message =
        "Register c must have a positive length, got Infinity" := by
  constructor
  · exact read_bitLine_of_overflow rfl (by decide +kernel)
  · decide +kernel

end OpenQasm.Source

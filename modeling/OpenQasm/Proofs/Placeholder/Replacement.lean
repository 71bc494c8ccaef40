import OpenQasm.Proofs.Failure
import OpenQasm.Proofs.Number.Text
import OpenQasm.Proofs.Placeholder.Substitution

/-!
# What substitution replaces

The runs of a text that are tokens are replaced by the literals of their values, and nothing else
changes. The first token without a value is reported. A literal has no underscore, and a token has
no part of a word beside it, so what is left has no tokens, and there is nothing to replace in it.
-/
namespace OpenQasm.Placeholder

open OpenQasm.Text

/-- What stands in place of a run: for a token the literal of its value, for anything else the run
itself. -/
inductive Replaces (values : Table String Float) : List Char → List Char → Prop
  | token {run : List Char} {x : Float} (htoken : IsTokenWord run)
      (hvalue : values.get? (String.ofList run) = some x) :
      Replaces values run (Number.literal x).toList
  | other {run : List Char} (hother : ¬IsTokenWord run) : Replaces values run run

theorem substituteRun_eq_ok_iff {values : Table String Float} {run piece : List Char} :
    substituteRun values run = .ok piece ↔ Replaces values run piece := by
  constructor
  · intro h
    by_cases htoken : IsTokenWord run
    · rw [substituteRun_of_token htoken, numberOf] at h
      cases hvalue : values.get? (String.ofList run) with
      | none =>
          rw [hvalue] at h
          cases h
      | some x =>
          rw [hvalue] at h
          cases h
          exact .token htoken hvalue
    · rw [substituteRun_of_not_token htoken] at h
      cases h
      exact .other htoken
  · intro h
    cases h with
    | token htoken hvalue => rw [substituteRun_of_token htoken, numberOf, hvalue]
    | other hother => exact substituteRun_of_not_token hother values

theorem substituteRun_eq_error_iff {values : Table String Float} {run : List Char}
    {e : Parameter.Error} :
    substituteRun values run = .error e ↔ IsTokenWord run ∧
      values.get? (String.ofList run) = none ∧ e = ⟨String.ofList run, .unboundPlaceholder⟩ := by
  by_cases htoken : IsTokenWord run
  · rw [substituteRun_of_token htoken, numberOf]
    cases values.get? (String.ofList run) with
    | none => simp [htoken, eq_comm]
    | some x => simp
  · simp [substituteRun_of_not_token htoken, htoken]

theorem exists_replaces_iff {values : Table String Float} {run : List Char} :
    (∃ piece, Replaces values run piece) ↔
      (IsTokenWord run → ∃ x, values.get? (String.ofList run) = some x) := by
  constructor
  · rintro ⟨piece, hpiece⟩ htoken
    cases hpiece with
    | token _ hvalue => exact ⟨_, hvalue⟩
    | other hother => exact absurd htoken hother
  · intro h
    by_cases htoken : IsTokenWord run
    · obtain ⟨x, hx⟩ := h htoken
      exact ⟨_, .token htoken hx⟩
    · exact ⟨run, .other htoken⟩

theorem no_underscore_literal (x : Float) : '_' ∉ (Number.literal x).toList := by
  intro hmem
  have hnumeral := Number.isNumeral_of_mem_literal x _ hmem
  cases hnumeral

theorem tokenFree_literal (x : Float) : TokenFree (Number.literal x).toList :=
  .of_no_underscore (no_underscore_literal x)

theorem tokenFree_of_not_token {word : List Char} (hne : word ≠ [])
    (hword : ∀ c ∈ word, isNameChar c = true) (h : ¬IsTokenWord word) : TokenFree word := by
  refine tokenFree_iff.mpr (fun run hrun => ?_)
  rw [wordRuns_uniform hne hword, List.mem_singleton] at hrun
  rwa [hrun]

theorem stop_replaced {values : Table String Float} {cs cs' : List Char}
    (h : replaced values cs = .ok cs') (hstop : ∀ c ∈ cs.head?, isNameChar c = false) :
    ∀ c ∈ cs'.head?, isNameChar c = false := by
  cases cs with
  | nil =>
      cases h
      exact hstop
  | cons c cs =>
      rw [replaced_other values (hstop c rfl)] at h
      obtain ⟨rest, -, rfl⟩ := exists_of_map_ok h
      exact hstop

/-- What is replaced has no tokens left. -/
theorem tokenFree_replaced {values : Table String Float} {cs cs' : List Char}
    (h : replaced values cs = .ok cs') : TokenFree cs' := by
  induction cs using word_induction generalizing cs' with
  | nil =>
      cases h
      exact tokenFree_of_others (by simp)
  | other c cs hc ih =>
      rw [replaced_other values hc] at h
      obtain ⟨rest, hrest, rfl⟩ := exists_of_map_ok h
      have hone : ∀ d ∈ [c], isNameChar d = false := by simpa using hc
      exact (tokenFree_of_others hone).append (ih hrest)
        (.of_last (fun d hd => hone d (List.mem_of_mem_getLast? hd)) rest)
  | word word rest hne hword hrest ih =>
      rw [replaced_word values hne hword hrest] at h
      obtain ⟨piece, hpiece, h⟩ := exists_of_bind_ok h
      obtain ⟨rest', hrest', rfl⟩ := exists_of_map_ok h
      have hfree : TokenFree piece := by
        cases substituteRun_eq_ok_iff.mp hpiece with
        | token _ _ => exact tokenFree_literal _
        | other hother => exact tokenFree_of_not_token hne hword hother
      exact hfree.append (ih hrest') (.of_head piece (stop_replaced hrest' hrest))

theorem substitute_runs (text : String) (values : Table String Float) :
    substitute text values = (fun pieces => String.ofList pieces.flatten) <$>
      (wordRuns text.toList).mapM (substituteRun values) := by
  rw [substitute_eq, replaced]
  cases (wordRuns text.toList).mapM (substituteRun values) <;> rfl

/-- Substitution replaces the runs that are tokens, and only those. It succeeds if each of them has
a value, and otherwise reports the first that has none. In the result there is no token any more, so
that substituting again, with whatever values, leaves it as it is. -/
theorem substitute_replaces (text : String) (values : Table String Float) :
    ((∃ result, substitute text values = .ok result) ↔
      ∀ run ∈ wordRuns text.toList, IsTokenWord run →
        ∃ x, values.get? (String.ofList run) = some x) ∧
    (∀ result, substitute text values = .ok result →
      (∃ pieces, List.Forall₂ (Replaces values) (wordRuns text.toList) pieces ∧
        result = String.ofList pieces.flatten) ∧
      (∀ word, IsTokenWord word → ¬WholeWord word result.toList) ∧
      ∀ values', substitute result values' = .ok result) ∧
    ∀ e, substitute text values = .error e → ∃ before run after,
      wordRuns text.toList = before ++ run :: after ∧
        (∀ word ∈ before, IsTokenWord word → ∃ x, values.get? (String.ofList word) = some x) ∧
        IsTokenWord run ∧ values.get? (String.ofList run) = none ∧
        e = ⟨String.ofList run, .unboundPlaceholder⟩ := by
  refine ⟨?_, ?_, ?_⟩
  · simp only [← exists_replaces_iff, ← substituteRun_eq_ok_iff]
    rw [← exists_mapM_ok_iff, substitute_runs]
    cases (wordRuns text.toList).mapM (substituteRun values) with
    | ok pieces => exact iff_of_true ⟨_, rfl⟩ ⟨_, rfl⟩
    | error e => exact iff_of_false (by rintro ⟨_, ⟨⟩⟩) (by rintro ⟨_, ⟨⟩⟩)
  · intro result h
    have hfree : TokenFree result.toList := by
      rw [substitute_eq] at h
      obtain ⟨cs, hcs, rfl⟩ := exists_of_map_ok h
      rw [String.toList_ofList]
      exact tokenFree_replaced hcs
    refine ⟨?_, hfree, ?_⟩
    · rw [substitute_runs] at h
      obtain ⟨pieces, hpieces, rfl⟩ := exists_of_map_ok h
      have hresults := forall₂_of_mapM hpieces
      exact ⟨pieces, hresults.imp (fun _ _ => substituteRun_eq_ok_iff.mp), rfl⟩
    · intro values'
      rw [substitute_eq, replaced_of_tokenFree values' hfree]
      exact congrArg Except.ok String.ofList_toList
  · intro e h
    have hruns : (wordRuns text.toList).mapM (substituteRun values) = .error e := by
      rw [substitute_runs] at h
      cases hmap : (wordRuns text.toList).mapM (substituteRun values) with
      | ok pieces =>
          rw [hmap] at h
          cases h
      | error e' =>
          rw [hmap] at h
          cases h
          rfl
    obtain ⟨before, run, after, hsplit, hbefore, hrun⟩ := exists_of_mapM_error hruns
    simp only [substituteRun_eq_ok_iff, exists_replaces_iff] at hbefore
    exact ⟨before, run, after, hsplit, hbefore, substituteRun_eq_error_iff.mp hrun⟩

end OpenQasm.Placeholder

import Mathlib

/-!
# Reported problems

A computation that can fail meets its possible problems in a fixed order and reports the first of
them. `Reports` ties a computation to the list of its problems, and the list of a composed
computation is put together from those of its parts, in the order in which they are run.
-/
namespace OpenQasm

variable {ε ε' α β : Type}

/-- A computation reports the first of some problems, and succeeds if there are none. -/
def Reports (x : Except ε α) (problems : List ε) : Prop :=
  match x with
  | .ok _ => problems = []
  | .error e => problems.head? = some e

namespace Reports

variable {x : Except ε α} {problems : List ε}

theorem ok (a : α) : Reports (.ok a : Except ε α) [] :=
  rfl

theorem error (e : ε) : Reports (.error e : Except ε α) [e] :=
  rfl

theorem map (h : Reports x problems) (f : α → β) : Reports (f <$> x) problems := by
  cases x with
  | ok a => exact h
  | error e => exact h

theorem mapError (h : Reports x problems) (f : ε → ε') :
    Reports (x.mapError f) (problems.map f) := by
  cases x with
  | ok a => exact List.map_eq_nil_iff.mpr h
  | error e =>
      change (problems.map f).head? = some (f e)
      rw [List.head?_map, h]
      rfl

/-- Problems of a first step come before those of the next. -/
theorem bind {f : α → Except ε β} {later : List ε} (h : Reports x problems)
    (hf : ∀ a, x = .ok a → Reports (f a) later) : Reports (x >>= f) (problems ++ later) := by
  cases x with
  | ok a =>
      have hnil : problems = [] := h
      rw [hnil]
      exact hf a rfl
  | error e =>
      change (problems ++ later).head? = some e
      rw [List.head?_append, h]
      rfl

theorem mapM {f : α → Except ε β} {problemsOf : α → List ε} {xs : List α}
    (h : ∀ x ∈ xs, Reports (f x) (problemsOf x)) : Reports (xs.mapM f) (xs.flatMap problemsOf) := by
  induction xs with
  | nil => exact ok []
  | cons x xs ih =>
      rw [List.mapM_cons, List.flatMap_cons]
      refine (h x (.head _)).bind (fun y _ => ?_)
      exact (ih (fun x' hx' => h x' (.tail _ hx'))).map (fun ys => y :: ys)

theorem exists_ok_iff (h : Reports x problems) : (∃ a, x = .ok a) ↔ problems = [] := by
  cases x with
  | ok a => exact iff_of_true ⟨a, rfl⟩ h
  | error e =>
      refine iff_of_false (fun ⟨a, ha⟩ => by cases ha) (fun hnil => ?_)
      subst hnil
      cases h

theorem eq_error_iff (h : Reports x problems) {e : ε} :
    x = .error e ↔ problems.head? = some e := by
  cases x with
  | ok a =>
      have hnil : problems = [] := h
      subst hnil
      exact iff_of_false (fun ha => by cases ha) (fun he => by cases he)
  | error e' =>
      have hhead : problems.head? = some e' := h
      rw [hhead, Except.error.injEq, Option.some.injEq]

end Reports

theorem exists_of_mapM_error {f : α → Except ε β} {xs : List α} {e : ε}
    (h : xs.mapM f = .error e) : ∃ before x after, xs = before ++ x :: after ∧
      (∀ y ∈ before, ∃ b, f y = .ok b) ∧ f x = .error e := by
  induction xs with
  | nil => cases h
  | cons x xs ih =>
      rw [List.mapM_cons] at h
      cases hx : f x with
      | error e' =>
          rw [hx] at h
          cases h
          exact ⟨[], x, xs, rfl, by simp, hx⟩
      | ok b =>
          have hrest : xs.mapM f = .error e := by
            rw [hx] at h
            cases hxs : xs.mapM f with
            | ok bs =>
                rw [hxs] at h
                cases h
            | error e' =>
                rw [hxs] at h
                exact h
          obtain ⟨before, y, after, rfl, hbefore, hy⟩ := ih hrest
          exact ⟨x :: before, y, after, rfl, List.forall_mem_cons.mpr ⟨⟨b, hx⟩, hbefore⟩, hy⟩

theorem flatMap_filter_of_nil {p : α → Bool} {f : α → List β} {as : List α}
    (h : ∀ a, p a = false → f a = []) : (as.filter p).flatMap f = as.flatMap f := by
  induction as with
  | nil => rfl
  | cons a as ih =>
      cases hp : p a with
      | true => rw [List.filter_cons_of_pos hp, List.flatMap_cons, List.flatMap_cons, ih]
      | false =>
          rw [List.filter_cons_of_neg (by simp [hp]), List.flatMap_cons, h a hp, ih,
            List.nil_append]

end OpenQasm

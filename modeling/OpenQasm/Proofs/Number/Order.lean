import OpenQasm.Number.Order
import OpenQasm.Proofs.Number.Value

/-!
# Sorting by a number

`sortOn` rearranges its entries, and if their numbers are finite it puts them in ascending order.
Entries that are in order already stay as they are.
Bisection keeps the invariant that everything before its left end is not above the number searched
for and everything from its right end on is above it.
-/
namespace OpenQasm.Number

variable {α : Type} {key : α → Float}

/-- Entries whose numbers are finite and ascend. -/
structure Ascending (key : α → Float) (xs : List α) : Prop where
  finite : ∀ x ∈ xs, (key x).isFinite = true
  ordered : xs.Pairwise (fun a b => value (key a) ≤ value (key b))

/-- Where bisection ends, the numbers before are not above the one searched for, and those from
there on are above it. -/
theorem place_spec (keys : List Float) (k : Float) (left right : ℕ) (hk : k.isFinite = true)
    (hfinite : ∀ x ∈ keys, x.isFinite = true)
    (hordered : keys.Pairwise (fun a b => value a ≤ value b))
    (hleft : left ≤ right) (hright : right ≤ keys.length)
    (hbelow : ∀ j, j < left → value (keys.getD j 0) ≤ value k)
    (habove : ∀ j, right ≤ j → j < keys.length → value k < value (keys.getD j 0)) :
    place keys k left right ≤ keys.length ∧
      (∀ j, j < place keys k left right → value (keys.getD j 0) ≤ value k) ∧
      ∀ j, place keys k left right ≤ j → j < keys.length → value k < value (keys.getD j 0) := by
  have hget {j : ℕ} (hj : j < keys.length) : keys.getD j 0 = keys[j] := by simp [hj]
  have hmono {i j : ℕ} (hij : i ≤ j) (hj : j < keys.length) :
      value (keys.getD i 0) ≤ value (keys.getD j 0) := by
    rcases Nat.lt_or_eq_of_le hij with hlt | rfl
    · rw [hget (by omega), hget hj]
      exact List.pairwise_iff_getElem.mp hordered i j (by omega) hj hlt
    · exact le_rfl
  induction hwidth : right - left using Nat.strong_induction_on generalizing left right with
  | _ width ih =>
    rw [place]
    split
    next hlt =>
      have hmid : left + (right - left) / 2 < keys.length := by omega
      have hcompare : k < keys.getD (left + (right - left) / 2) 0 ↔
          value k < value (keys.getD (left + (right - left) / 2) 0) := by
        apply lt_iff_value hk
        rw [hget hmid]
        exact hfinite _ (List.getElem_mem _)
      dsimp only
      split
      next hcmp =>
        refine ih _ ?_ _ _ (by omega) (by omega) hbelow ?_ rfl
        · omega
        · intro j hj hjlt
          exact lt_of_lt_of_le (hcompare.mp hcmp) (hmono hj hjlt)
      next hcmp =>
        refine ih _ ?_ _ _ (by omega) hright ?_ habove rfl
        · omega
        · intro j hj
          rw [hcompare, not_lt] at hcmp
          exact le_trans (hmono (by omega) hmid) hcmp
    next hge =>
      have heq : left = right := by omega
      subst heq
      exact ⟨hright, hbelow, habove⟩

theorem insertOn_perm (key : α → Float) (xs : List α) (x : α) :
    (insertOn key xs x).Perm (x :: xs) := by
  unfold insertOn
  dsimp only
  generalize place (xs.map key) (key x) 0 xs.length = i
  calc (xs.take i ++ x :: xs.drop i).Perm (x :: (xs.take i ++ xs.drop i)) := List.perm_middle
    _ = x :: xs := by rw [List.take_append_drop]

theorem Ascending.insertOn {xs : List α} {x : α} (h : Ascending key xs)
    (hx : (key x).isFinite = true) : Ascending key (insertOn key xs x) := by
  have hperm := insertOn_perm key xs x
  refine ⟨?_, ?_⟩
  · intro y hy
    rcases List.mem_cons.mp (hperm.mem_iff.mp hy) with rfl | hy
    · exact hx
    · exact h.finite y hy
  · have hspec := place_spec (xs.map key) (key x) 0 xs.length hx
      (by simpa using h.finite) (by simpa [List.pairwise_map] using h.ordered) (by omega) (by simp)
      (by omega) (by intro j hj hlt; simp at hlt; omega)
    obtain ⟨hle, hbelow, habove⟩ := hspec
    unfold Number.insertOn
    dsimp only
    generalize place (xs.map key) (key x) 0 xs.length = i at *
    have hsplit := h.ordered
    rw [← List.take_append_drop i xs, List.pairwise_append] at hsplit
    obtain ⟨hbefore, hafter, hcross⟩ := hsplit
    have hget {j : ℕ} (hj : j < xs.length) : (xs.map key).getD j 0 = key xs[j] := by simp [hj]
    have hlow : ∀ a ∈ xs.take i, value (key a) ≤ value (key x) := by
      intro a ha
      obtain ⟨j, hj, rfl⟩ := List.mem_take_iff_getElem.mp ha
      have := hbelow j (by omega)
      rwa [hget (by omega)] at this
    have hhigh : ∀ b ∈ xs.drop i, value (key x) ≤ value (key b) := by
      intro b hb
      obtain ⟨j, hj, rfl⟩ := List.mem_drop_iff_getElem.mp hb
      have := habove (i + j) (by omega) (by simp; omega)
      rw [hget (by omega)] at this
      exact this.le
    rw [List.pairwise_append, List.pairwise_cons]
    refine ⟨hbefore, ⟨hhigh, hafter⟩, ?_⟩
    intro a ha b hb
    rcases List.mem_cons.mp hb with rfl | hb
    · exact hlow a ha
    · exact hcross a ha b hb

theorem foldl_insertOn_perm (key : α → Float) (rest xs : List α) :
    (rest.foldl (insertOn key) xs).Perm (xs ++ rest) := by
  induction rest generalizing xs with
  | nil => simp
  | cons x rest ih =>
      rw [List.foldl_cons]
      refine (ih _).trans ?_
      refine ((insertOn_perm key xs x).append_right rest).trans ?_
      exact List.perm_middle.symm

theorem Ascending.foldl_insertOn {xs rest : List α} (h : Ascending key xs)
    (hrest : ∀ x ∈ rest, (key x).isFinite = true) :
    Ascending key (rest.foldl (Number.insertOn key) xs) := by
  induction rest generalizing xs with
  | nil => exact h
  | cons x rest ih =>
      exact ih (h.insertOn (hrest x (.head _))) (fun y hy => hrest y (.tail _ hy))

/-- A run and the rest make up the list, and each number of the run stands to the one before it as
asked. -/
theorem spanRun_spec (key : α → Float) (ordered : Float → Float → Bool) (x : α) (xs : List α) :
    (spanRun key ordered x xs).1 ++ (spanRun key ordered x xs).2 = xs ∧
      List.IsChain (fun a b => ordered (key a) (key b) = true)
        (x :: (spanRun key ordered x xs).1) := by
  induction xs generalizing x with
  | nil => simp [spanRun]
  | cons y xs ih =>
      obtain ⟨happend, hchain⟩ := ih y
      rw [spanRun]
      split
      next h => exact ⟨by simp [happend], .cons_cons h hchain⟩
      next => simp

theorem sortOn_perm (key : α → Float) (xs : List α) : (sortOn key xs).Perm xs := by
  match xs with
  | [] => exact .refl _
  | [x] => exact .refl _
  | x :: y :: rest =>
      rw [sortOn]
      split
      next =>
        have hspan := (spanRun_spec key (fun a b => b < a) y rest).1
        dsimp only
        refine (foldl_insertOn_perm key _ _).trans ?_
        refine ((List.reverse_perm _).append_right _).trans ?_
        simp [hspan]
      next =>
        have hspan := (spanRun_spec key (fun a b => !(decide (b < a))) y rest).1
        dsimp only
        refine (foldl_insertOn_perm key _ _).trans ?_
        simp [hspan]

theorem ascending_of_isChain {xs : List α} (hfinite : ∀ x ∈ xs, (key x).isFinite = true)
    (h : xs.IsChain (fun a b => value (key a) ≤ value (key b))) : Ascending key xs := by
  refine ⟨hfinite, ?_⟩
  have : Trans (fun a b : α => value (key a) ≤ value (key b))
      (fun a b => value (key a) ≤ value (key b)) (fun a b => value (key a) ≤ value (key b)) :=
    ⟨le_trans⟩
  exact List.isChain_iff_pairwise.mp h

theorem sortOn_ascending {xs : List α} (h : ∀ x ∈ xs, (key x).isFinite = true) :
    Ascending key (sortOn key xs) := by
  match xs, h with
  | [], _ => exact ⟨by simp [sortOn], by simp [sortOn]⟩
  | [x], h => exact ⟨h, by simp [sortOn]⟩
  | x :: y :: rest, h =>
      have hmem {run after : List α} (happend : run ++ after = rest) :
          (∀ a ∈ x :: y :: run, (key a).isFinite = true) ∧
            ∀ a ∈ after, (key a).isFinite = true := by
        subst happend
        exact ⟨fun a ha => h a (by simp at ha ⊢; tauto), fun a ha => h a (by simp [ha])⟩
      rw [sortOn]
      split
      next hlt =>
        obtain ⟨happend, hchain⟩ := spanRun_spec key (fun a b => b < a) y rest
        obtain ⟨hrun, hafter⟩ := hmem happend
        refine Ascending.foldl_insertOn (ascending_of_isChain ?_ ?_) hafter
        · intro a ha
          exact hrun a (List.mem_reverse.mp ha)
        · rw [List.isChain_reverse]
          refine List.IsChain.imp_of_mem_imp (fun a b ha hb hab => ?_)
            (List.IsChain.cons_cons (by simpa using hlt) hchain)
          rw [decide_eq_true_eq, lt_iff_value (hrun b hb) (hrun a ha)] at hab
          exact hab.le
      next hge =>
        obtain ⟨happend, hchain⟩ := spanRun_spec key (fun a b => !(decide (b < a))) y rest
        obtain ⟨hrun, hafter⟩ := hmem happend
        refine Ascending.foldl_insertOn (ascending_of_isChain hrun ?_) hafter
        refine List.IsChain.imp_of_mem_imp (fun a b ha hb hab => ?_)
          (List.IsChain.cons_cons (by simpa using hge) hchain)
        rw [Bool.not_eq_true', decide_eq_false_iff_not, lt_iff_value (hrun b hb) (hrun a ha),
          not_lt] at hab
        exact hab

theorem spanRun_of_isChain {ordered : Float → Float → Bool} {x : α} {xs : List α}
    (h : (x :: xs).IsChain (fun a b => ordered (key a) (key b) = true)) :
    spanRun key ordered x xs = (xs, []) := by
  induction xs generalizing x with
  | nil => rfl
  | cons y xs ih =>
      obtain ⟨hxy, hrest⟩ := List.isChain_cons_cons.mp h
      rw [spanRun, if_pos hxy, ih hrest]

theorem sortOn_of_isChain {xs : List α} (h : xs.IsChain (fun a b => ¬key b < key a)) :
    sortOn key xs = xs := by
  match xs with
  | [] => rfl
  | [x] => rfl
  | x :: y :: rest =>
      obtain ⟨hxy, hrest⟩ := List.isChain_cons_cons.mp h
      have hrun : spanRun key (fun a b => !(decide (b < a))) y rest = (rest, []) :=
        spanRun_of_isChain (hrest.imp (fun _ _ hab => by simpa using hab))
      rw [sortOn, if_neg hxy, hrun]
      rfl

section Map

variable {β : Type} (f : β → α)

theorem insertOn_map (key : α → Float) (xs : List β) (x : β) :
    (insertOn (fun b => key (f b)) xs x).map f = insertOn key (xs.map f) (f x) := by
  unfold insertOn
  dsimp only
  rw [List.map_append, List.map_cons, List.map_take, List.map_drop, List.map_map, List.length_map]
  rfl

theorem foldl_insertOn_map (key : α → Float) (rest xs : List β) :
    (rest.foldl (insertOn (fun b => key (f b))) xs).map f =
      (rest.map f).foldl (insertOn key) (xs.map f) := by
  induction rest generalizing xs with
  | nil => rfl
  | cons x rest ih => rw [List.foldl_cons, ih, insertOn_map, List.map_cons, List.foldl_cons]

theorem spanRun_map (key : α → Float) (ordered : Float → Float → Bool) (x : β) (xs : List β) :
    spanRun key ordered (f x) (xs.map f) =
      ((spanRun (fun b => key (f b)) ordered x xs).1.map f,
        (spanRun (fun b => key (f b)) ordered x xs).2.map f) := by
  induction xs generalizing x with
  | nil => rfl
  | cons y xs ih =>
      rw [List.map_cons, spanRun, spanRun, ih]
      split <;> rfl

/-- Sorting looks at nothing but the numbers. -/
theorem sortOn_map (key : α → Float) (xs : List β) :
    (sortOn (fun b => key (f b)) xs).map f = sortOn key (xs.map f) := by
  match xs with
  | [] => rfl
  | [x] => rfl
  | x :: y :: rest =>
      rw [List.map_cons, List.map_cons, sortOn, sortOn]
      split
      next =>
        rw [foldl_insertOn_map, spanRun_map, List.map_reverse]
        rfl
      next =>
        rw [foldl_insertOn_map, spanRun_map]
        rfl

end Map

end OpenQasm.Number

import OpenQasm.Proofs.Number.Range
import OpenQasm.Source.Reader

/-!
# The numbering of qubits

The elements of registers are numbered through, the registers in order and the elements of each in
order. With distinct names this is a bijection with the numbers below the sum of the sizes. A scope
keeps the number of the first element of each register, as a sum of sizes that is exact as long as
it stays below `2 ^ 53`.
-/
namespace OpenQasm.Source

open Number (infinity isNatural IsCount isCount_ofNat)

def total (rs : List (String × ℕ)) : ℕ :=
  (rs.map Prod.snd).sum

@[simp] theorem total_cons (r : String × ℕ) (rs : List (String × ℕ)) :
    total (r :: rs) = r.2 + total rs :=
  rfl

theorem le_total {r : String × ℕ} {rs : List (String × ℕ)} (h : r ∈ rs) : r.2 ≤ total rs :=
  List.le_sum_of_mem (List.mem_map_of_mem h)

/-- The elements of registers: a name and an index below the size. -/
def elements (rs : List (String × ℕ)) : Set (String × ℕ) :=
  {e | ∃ size, (e.1, size) ∈ rs ∧ e.2 < size}

theorem mem_elements {rs : List (String × ℕ)} {e : String × ℕ} :
    e ∈ elements rs ↔ ∃ size, (e.1, size) ∈ rs ∧ e.2 < size :=
  Iff.rfl

theorem mem_elements_cons {r : String × ℕ} {rs : List (String × ℕ)} {e : String × ℕ} :
    e ∈ elements (r :: rs) ↔ (e.1 = r.1 ∧ e.2 < r.2) ∨ e ∈ elements rs := by
  simp only [mem_elements, List.mem_cons, Prod.ext_iff]
  constructor
  · rintro ⟨size, ⟨hname, rfl⟩ | hmem, hlt⟩
    · exact .inl ⟨hname, hlt⟩
    · exact .inr ⟨size, hmem, hlt⟩
  · rintro (⟨hname, hlt⟩ | ⟨size, hmem, hlt⟩)
    · exact ⟨r.2, .inl ⟨hname, rfl⟩, hlt⟩
    · exact ⟨size, .inr hmem, hlt⟩

/-- The number of an element: its index after the sizes of the registers before its own. -/
def number : List (String × ℕ) → String × ℕ → ℕ
  | [], e => e.2
  | r :: rs, e => if e.1 = r.1 then e.2 else r.2 + number rs e

theorem number_eq_add (rs : List (String × ℕ)) (name : String) (i : ℕ) :
    number rs (name, i) = number rs (name, 0) + i := by
  induction rs with
  | nil => exact (Nat.zero_add i).symm
  | cons r rs ih =>
      unfold number
      dsimp only
      split_ifs
      · exact (Nat.zero_add i).symm
      · rw [ih, Nat.add_assoc]

section

variable {r : String × ℕ} {rs : List (String × ℕ)} {e : String × ℕ}

theorem number_of_name (h : e.1 = r.1) : number (r :: rs) e = e.2 :=
  if_pos h

theorem name_ne_of_mem (hnodup : ((r :: rs).map Prod.fst).Nodup) (he : e ∈ elements rs) :
    e.1 ≠ r.1 := by
  obtain ⟨size, hmem, -⟩ := mem_elements.mp he
  intro heq
  rw [List.map_cons, List.nodup_cons, ← heq] at hnodup
  exact hnodup.1 (List.mem_map.mpr ⟨_, hmem, rfl⟩)

theorem number_of_mem (hnodup : ((r :: rs).map Prod.fst).Nodup) (he : e ∈ elements rs) :
    number (r :: rs) e = r.2 + number rs e :=
  if_neg (name_ne_of_mem hnodup he)

theorem number_mapsTo (hnodup : (rs.map Prod.fst).Nodup) :
    Set.MapsTo (number rs) (elements rs) (Set.Iio (total rs)) := by
  induction rs with
  | nil =>
      intro e he
      obtain ⟨size, hmem, -⟩ := mem_elements.mp he
      cases hmem
  | cons r rs ih =>
      intro e he
      rw [Set.mem_Iio, total_cons]
      rcases mem_elements_cons.mp he with ⟨hname, hlt⟩ | he
      · rw [number_of_name hname]
        omega
      · rw [number_of_mem hnodup he]
        have := Set.mem_Iio.mp (ih (List.nodup_cons.mp hnodup).2 he)
        omega

theorem number_injOn (hnodup : (rs.map Prod.fst).Nodup) :
    Set.InjOn (number rs) (elements rs) := by
  induction rs with
  | nil =>
      intro e he
      obtain ⟨size, hmem, -⟩ := mem_elements.mp he
      cases hmem
  | cons r rs ih =>
      intro e he e' he' heq
      rcases mem_elements_cons.mp he with ⟨hname, hlt⟩ | he <;>
        rcases mem_elements_cons.mp he' with ⟨hname', hlt'⟩ | he'
      · rw [number_of_name hname, number_of_name hname'] at heq
        exact Prod.ext (hname.trans hname'.symm) heq
      · rw [number_of_name hname, number_of_mem hnodup he'] at heq
        omega
      · rw [number_of_mem hnodup he, number_of_name hname'] at heq
        omega
      · rw [number_of_mem hnodup he, number_of_mem hnodup he'] at heq
        exact ih (List.nodup_cons.mp hnodup).2 he he' (by omega)

theorem number_surjOn (hnodup : (rs.map Prod.fst).Nodup) :
    Set.SurjOn (number rs) (elements rs) (Set.Iio (total rs)) := by
  induction rs with
  | nil =>
      intro n hn
      exact absurd (Set.mem_Iio.mp hn) (Nat.not_lt_zero n)
  | cons r rs ih =>
      intro n hn
      rw [Set.mem_Iio, total_cons] at hn
      rcases lt_or_ge n r.2 with hlt | hge
      · exact ⟨(r.1, n), mem_elements_cons.mpr (.inl ⟨rfl, hlt⟩), number_of_name rfl⟩
      · obtain ⟨e, he, heq⟩ := ih (List.nodup_cons.mp hnodup).2
          (Set.mem_Iio.mpr (show n - r.2 < total rs by omega))
        refine ⟨e, mem_elements_cons.mpr (.inr he), ?_⟩
        rw [number_of_mem hnodup he]
        omega

/-- Elements of registers with distinct names are numbered without gaps and repetitions. -/
theorem number_bijOn (hnodup : (rs.map Prod.fst).Nodup) :
    Set.BijOn (number rs) (elements rs) (Set.Iio (total rs)) :=
  ⟨number_mapsTo hnodup, number_injOn hnodup, number_surjOn hnodup⟩

end

def sumFrom (x : Float) (rs : List (String × ℕ)) : Float :=
  rs.foldl (fun x r => x + Float.ofNat r.2) x

theorem sumFrom_append (x : Float) (rs rs' : List (String × ℕ)) :
    sumFrom x (rs ++ rs') = sumFrom (sumFrom x rs) rs' :=
  List.foldl_append

theorem sumFrom_concat (x : Float) (rs : List (String × ℕ)) (r : String × ℕ) :
    sumFrom x (rs ++ [r]) = sumFrom x rs + Float.ofNat r.2 :=
  sumFrom_append x rs [r]

/-- Registers laid out one after the other, the first from a given number on. -/
def placed (x : Float) : List (String × ℕ) → List (String × QubitRegister)
  | [] => []
  | r :: rs => (r.1, ⟨x, Float.ofNat r.2⟩) :: placed (x + Float.ofNat r.2) rs

theorem placed_concat (x : Float) (rs : List (String × ℕ)) (r : String × ℕ) :
    placed x (rs ++ [r]) = placed x rs ++ [(r.1, ⟨sumFrom x rs, Float.ofNat r.2⟩)] := by
  induction rs generalizing x with
  | nil => rfl
  | cons r' rs ih => exact congrArg _ (ih _)

theorem names_placed (x : Float) (rs : List (String × ℕ)) :
    (placed x rs).map Prod.fst = rs.map Prod.fst := by
  induction rs generalizing x with
  | nil => rfl
  | cons r rs ih => exact congrArg _ (ih _)

theorem sumFrom_ofNat {m : ℕ} {rs : List (String × ℕ)} (h : m + total rs < 2 ^ 53) :
    sumFrom (Float.ofNat m) rs = Float.ofNat (m + total rs) := by
  induction rs generalizing m with
  | nil => rfl
  | cons r rs ih =>
      rw [total_cons] at h ⊢
      change sumFrom (Float.ofNat m + Float.ofNat r.2) rs = _
      rw [Number.ofNat_add (by omega), ih (by omega), Nat.add_assoc]

/-- The first number of a register is exact as long as all of them are small. -/
theorem lookup_placed {m : ℕ} {rs : List (String × ℕ)} (h : m + total rs < 2 ^ 53)
    (name : String) :
    (placed (Float.ofNat m) rs).lookup name =
      (rs.lookup name).map
        (fun size => ⟨Float.ofNat (m + number rs (name, 0)), Float.ofNat size⟩) := by
  induction rs generalizing m with
  | nil => rfl
  | cons r rs ih =>
      obtain ⟨name', size⟩ := r
      rw [total_cons] at h
      rw [placed, Number.ofNat_add (by omega), List.lookup_cons, List.lookup_cons, number]
      by_cases hname : name = name'
      · rw [if_pos hname, beq_iff_eq.mpr hname]
        rfl
      · rw [if_neg hname, beq_false_of_ne hname]
        dsimp only at h ⊢
        rw [ih (by omega)]
        simp only [Nat.add_assoc]

theorem isCount_sumFrom {x : Float} (hx : IsCount x) (rs : List (String × ℕ)) :
    IsCount (sumFrom x rs) := by
  induction rs generalizing x with
  | nil => exact hx
  | cons r rs ih => exact ih (hx.add (isCount_ofNat r.2))

theorem isNatural_of_sumFrom {x : Float} (hx : IsCount x) {rs : List (String × ℕ)}
    (h : isNatural (sumFrom x rs) = true) : isNatural x = true := by
  induction rs generalizing x with
  | nil => exact h
  | cons r rs ih =>
      have hnext := ih (hx.add (isCount_ofNat r.2)) h
      exact (hx.isNatural_of_add (isCount_ofNat r.2) hnext).1

theorem sumFrom_infinity (rs : List (String × ℕ)) : sumFrom infinity rs = infinity := by
  refine (isCount_sumFrom (.inr rfl) rs).resolve_left (fun h => ?_)
  have hnatural := isNatural_of_sumFrom (.inr rfl) h
  rw [Number.not_isNatural_infinity] at hnatural
  cases hnatural

theorem isCount_of_mem_placed {x : Float} (hx : IsCount x) {rs : List (String × ℕ)}
    {e : String × QubitRegister} (he : e ∈ placed x rs) :
    IsCount e.2.offset ∧ IsCount e.2.size := by
  induction rs generalizing x with
  | nil => cases he
  | cons r rs ih =>
      rcases List.mem_cons.mp he with rfl | he
      · exact ⟨hx, isCount_ofNat r.2⟩
      · exact ih (hx.add (isCount_ofNat r.2)) he

/-- As long as the sum of the sizes is not too large, no register reaches too far. -/
theorem isNatural_of_mem_placed {x : Float} (hx : IsCount x) {rs : List (String × ℕ)}
    (hsum : isNatural (sumFrom x rs) = true) {e : String × QubitRegister} (he : e ∈ placed x rs) :
    isNatural (e.2.offset + e.2.size) = true := by
  induction rs generalizing x with
  | nil => cases he
  | cons r rs ih =>
      have hnext := hx.add (isCount_ofNat r.2)
      rcases List.mem_cons.mp he with rfl | he
      · exact isNatural_of_sumFrom hnext hsum
      · exact ih hnext hsum he

end OpenQasm.Source

import OpenQasm.Proofs.Number.Packing

/-!
# The value of a number

A finite number stands for a rational. The order and the equality of numbers are those of their
values, and a number other than zero is determined by its value. Numbers that are not finite are
given the value zero and are left out of every statement.
-/
namespace OpenQasm.Number

open Float.Model Float.Model.UnpackedFloat

/-- The rational that a finite number stands for. -/
def value (x : Float) : ℚ :=
  match x.toModel.unpack with
  | .finite s m e _ => s.apply m * (2 : ℚ) ^ e
  | _ => 0

theorem isFinite_iff {x : Float} :
    x.isFinite = true ↔
      (∃ s, x.toModel.unpack = .zero s) ∨ ∃ s m e h, x.toModel.unpack = .finite s m e h := by
  change x.toModel.unpack.isFinite = true ↔ _
  cases x.toModel.unpack with
  | finite s m e h => simp [UnpackedFloat.isFinite, h]
  | _ => simp [UnpackedFloat.isFinite]

theorem value_of_finite {x : Float} {s : Sign} {m : ℕ} {e : ℤ} {h : 0 < m}
    (hu : x.toModel.unpack = .finite s m e h) : value x = s.apply m * (2 : ℚ) ^ e := by
  rw [value, hu]

theorem value_of_zero {x : Float} {s : Sign} (hu : x.toModel.unpack = .zero s) : value x = 0 := by
  rw [value, hu]

theorem two_zpow_pos (e : ℤ) : (0 : ℚ) < 2 ^ e :=
  zpow_pos (by norm_num) e

theorem mul_zpow_pos {m : ℕ} (h : 0 < m) (e : ℤ) : (0 : ℚ) < m * 2 ^ e :=
  mul_pos (by exact_mod_cast h) (two_zpow_pos e)

theorem InFormat.lt_of_exponent_lt {m m' : ℕ} {e e' : ℤ} (hf : InFormat m e) (hf' : InFormat m' e')
    (h : e < e') : (m : ℚ) * 2 ^ e < m' * 2 ^ e' := by
  have hm : (m : ℚ) < 2 ^ 53 := by exact_mod_cast hf.lt
  have hm' : (2 : ℚ) ^ 52 ≤ m' := by
    have := hf.le_exponent
    exact_mod_cast hf'.normal.resolve_right (by omega)
  calc (m : ℚ) * 2 ^ e < 2 ^ 53 * 2 ^ e := mul_lt_mul_of_pos_right hm (two_zpow_pos e)
    _ = 2 ^ 52 * 2 ^ (e + 1) := by rw [zpow_add₀ (by norm_num)]; ring
    _ ≤ 2 ^ 52 * 2 ^ e' := by
        apply mul_le_mul_of_nonneg_left _ (by norm_num)
        exact zpow_le_zpow_right₀ (by norm_num) (by omega)
    _ ≤ m' * 2 ^ e' := mul_le_mul_of_nonneg_right hm' (two_zpow_pos e').le

/-- The lexicographic order of exponent and mantissa is the order of values. -/
theorem InFormat.compare_then {m m' : ℕ} {e e' : ℤ} (hf : InFormat m e) (hf' : InFormat m' e') :
    (compare e e').then (compare m m') = compare ((m : ℚ) * 2 ^ e) (m' * 2 ^ e') := by
  rcases lt_trichotomy e e' with h | h | h
  · rw [compare_lt_iff_lt.mpr h, compare_lt_iff_lt.mpr (hf.lt_of_exponent_lt hf' h)]
    rfl
  · subst h
    rw [compare_eq_iff_eq.mpr rfl]
    change compare m m' = _
    rcases lt_trichotomy m m' with h | h | h
    · have hq : (m : ℚ) * 2 ^ e < m' * 2 ^ e :=
        mul_lt_mul_of_pos_right (by exact_mod_cast h) (two_zpow_pos e)
      rw [compare_lt_iff_lt.mpr h, compare_lt_iff_lt.mpr hq]
    · rw [h, compare_eq_iff_eq.mpr rfl, compare_eq_iff_eq.mpr rfl]
    · have hq : (m' : ℚ) * 2 ^ e < m * 2 ^ e :=
        mul_lt_mul_of_pos_right (by exact_mod_cast h) (two_zpow_pos e)
      rw [compare_gt_iff_gt.mpr h, compare_gt_iff_gt.mpr hq]
  · rw [compare_gt_iff_gt.mpr h, compare_gt_iff_gt.mpr (hf'.lt_of_exponent_lt hf h)]
    rfl

theorem compare_neg_neg (a b : ℚ) : compare (-a) (-b) = (compare a b).swap := by
  have hswap : compare b a = (compare a b).swap := Std.OrientedCmp.eq_swap
  rw [← hswap]
  rcases lt_trichotomy a b with h | h | h
  · rw [compare_gt_iff_gt.mpr (neg_lt_neg h), compare_gt_iff_gt.mpr h]
  · rw [h, compare_eq_iff_eq.mpr rfl, compare_eq_iff_eq.mpr rfl]
  · rw [compare_lt_iff_lt.mpr (neg_lt_neg h), compare_lt_iff_lt.mpr h]

/-- Finite numbers are compared by their values. -/
theorem compare_unpack {x y : Float} (hx : x.isFinite = true) (hy : y.isFinite = true) :
    x.toModel.unpack.compare y.toModel.unpack = some (compare (value x) (value y)) := by
  rcases isFinite_iff.mp hx with ⟨s, hu⟩ | ⟨s, m, e, h, hu⟩ <;>
    rcases isFinite_iff.mp hy with ⟨s', hu'⟩ | ⟨s', m', e', h', hu'⟩
  · rw [hu, hu', value_of_zero hu, value_of_zero hu', compare_eq_iff_eq.mpr rfl]
    rfl
  · have hv := mul_zpow_pos h' e'
    rw [hu, hu', value_of_zero hu, value_of_finite hu']
    cases s' with
    | negative =>
        rw [compare_gt_iff_gt.mpr (by simp only [Sign.apply]; push_cast; linarith)]
        rfl
    | positive =>
        rw [compare_lt_iff_lt.mpr (by simpa [Sign.apply] using hv)]
        rfl
  · have hv := mul_zpow_pos h e
    rw [hu, hu', value_of_finite hu, value_of_zero hu']
    cases s with
    | negative =>
        rw [compare_lt_iff_lt.mpr (by simp only [Sign.apply]; push_cast; linarith)]
        rfl
    | positive =>
        rw [compare_gt_iff_gt.mpr (by simpa [Sign.apply] using hv)]
        rfl
  · have hv := mul_zpow_pos h e
    have hv' := mul_zpow_pos h' e'
    have hc := (inFormat_of_unpack hu).compare_then (inFormat_of_unpack hu')
    rw [hu, hu', value_of_finite hu, value_of_finite hu']
    cases s <;> cases s' <;> simp only [Sign.apply] <;> push_cast
    · rw [neg_mul, neg_mul, compare_neg_neg, ← hc]
      rfl
    · rw [compare_lt_iff_lt.mpr (by linarith)]
      rfl
    · rw [compare_gt_iff_gt.mpr (by linarith)]
      rfl
    · rw [← hc]
      rfl

theorem lt_iff_value {x y : Float} (hx : x.isFinite = true) (hy : y.isFinite = true) :
    x < y ↔ value x < value y := by
  change (decide (x.toModel.unpack.lt y.toModel.unpack = true)) = true ↔ _
  rw [decide_eq_true_iff, UnpackedFloat.lt, compare_unpack hx hy, beq_iff_eq, Option.some_inj,
    compare_lt_iff_lt]

theorem le_iff_value {x y : Float} (hx : x.isFinite = true) (hy : y.isFinite = true) :
    x ≤ y ↔ value x ≤ value y := by
  change (decide (x.toModel.unpack.le y.toModel.unpack = true)) = true ↔ _
  rw [decide_eq_true_iff, UnpackedFloat.le, compare_unpack hx hy, Option.any_some,
    ← compare_le_iff_le]
  cases compare (value x) (value y) <;> decide

theorem beq_iff_value {x y : Float} (hx : x.isFinite = true) (hy : y.isFinite = true) :
    (x == y) = true ↔ value x = value y := by
  change x.toModel.unpack.beq y.toModel.unpack = true ↔ _
  rw [UnpackedFloat.beq, compare_unpack hx hy, beq_iff_eq, Option.some_inj, compare_eq_iff_eq]

theorem InFormat.ext_value {m m' : ℕ} {e e' : ℤ} (hf : InFormat m e) (hf' : InFormat m' e')
    (h : (m : ℚ) * 2 ^ e = m' * 2 ^ e') : m = m' ∧ e = e' := by
  have hexp : e = e' := by
    rcases lt_trichotomy e e' with hlt | heq | hgt
    · exact absurd h (hf.lt_of_exponent_lt hf' hlt).ne
    · exact heq
    · exact absurd h (hf'.lt_of_exponent_lt hf hgt).ne'
  subst hexp
  have hm := mul_right_cancel₀ (two_zpow_pos e).ne' h
  exact ⟨by exact_mod_cast hm, rfl⟩

theorem unpack_of_value_pos {x : Float} (hx : x.isFinite = true) (hv : 0 < value x) :
    ∃ m e h, x.toModel.unpack = .finite .positive m e h ∧ value x = m * (2 : ℚ) ^ e := by
  rcases isFinite_iff.mp hx with ⟨s, hu⟩ | ⟨s, m, e, h, hu⟩
  · rw [value_of_zero hu] at hv
    exact absurd hv (lt_irrefl 0)
  · have hval := value_of_finite hu
    cases s with
    | negative =>
        have := mul_zpow_pos h e
        rw [hval] at hv
        simp only [Sign.apply] at hv
        push_cast at hv
        linarith
    | positive => exact ⟨m, e, h, hu, by rw [hval]; simp [Sign.apply]⟩

theorem eq_of_value_eq {x y : Float} (hx : x.isFinite = true) (hy : y.isFinite = true)
    (hpos : 0 < value x) (h : value x = value y) : x = y := by
  obtain ⟨m, e, hm, hu, hval⟩ := unpack_of_value_pos hx hpos
  obtain ⟨m', e', hm', hu', hval'⟩ := unpack_of_value_pos hy (h ▸ hpos)
  have hparts := (inFormat_of_unpack hu).ext_value (inFormat_of_unpack hu')
    (by rw [← hval, ← hval', h])
  obtain ⟨rfl, rfl⟩ := hparts
  exact eq_of_unpack (by rw [hu, hu'])

end OpenQasm.Number

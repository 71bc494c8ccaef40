import OpenQasm.Proofs.Number.Range

/-!
# Sums of natural numbers do not fall

Rounding keeps the order: the greater of two rationals is not rounded below the other. So a sum of
natural numbers is never below its first summand, whether it is exact, rounded or infinite. What was
exceeded once stays exceeded however many more are added. Adding zero, of either sign, changes
nothing.
-/
namespace OpenQasm.Number

open Float.Model Float.Model.UnpackedFloat

theorem le_roundEven {q : ℚ} {n : ℕ} (h : (n : ℚ) ≤ q) : n ≤ roundEven q := by
  have hfloor : n ≤ ⌊q⌋₊ := Nat.le_floor h
  unfold roundEven
  split_ifs <;> omega

theorem le_roundEven_lastPlace {q : ℚ} (hq : 2 ^ 52 ≤ q) :
    2 ^ 52 ≤ roundEven (q / 2 ^ lastPlace q) := by
  apply le_roundEven
  rw [le_div_iff₀ (two_zpow_pos _)]
  exact_mod_cast (lastPlace_of_large hq).2

/-- The value of a rounded rational from `2 ^ 52` on, also where the mantissa carries over. -/
theorem value_nearest_of_large {q : ℚ} (hq : 2 ^ 52 ≤ q) (hfin : (nearest q).isFinite = true) :
    value (nearest q) = roundEven (q / 2 ^ lastPlace q) * 2 ^ lastPlace q := by
  have hplace := (lastPlace_of_large hq).1
  have hround := le_roundEven_lastPlace hq
  have hvalue {m : ℕ} {e : ℤ} {h : 0 < m} (hparts : nearestParts q = .finite .positive m e h)
      (hm : 2 ^ 52 ≤ m) (hlt : m < 2 ^ 53) (he : 0 ≤ e) : value (nearest q) = m * 2 ^ e := by
    have hexp : e ≤ 971 := by
      by_contra hhigh
      unfold nearest at hfin
      rw [hparts, pack_of_high h (by omega)] at hfin
      exact absurd hfin (by decide)
    rw [value_of_finite (nearest_unpack hparts ⟨h, hlt, by omega, hexp, .inl hm⟩)]
    simp [Sign.apply]
  by_cases hcarry : roundEven (q / 2 ^ lastPlace q) < 2 ^ 53
  · exact hvalue (nearestParts_eq rfl rfl (by omega) hcarry) hround hcarry hplace
  · have hpos : 0 < q := lt_of_lt_of_le (by norm_num) hq
    have heq := le_antisymm (roundEven_lastPlace_le hpos) (not_lt.mp hcarry)
    rw [hvalue (nearestParts_carry rfl heq) le_rfl (by norm_num) (by omega), heq,
      zpow_add_one₀ (by norm_num)]
    push_cast
    ring

theorem roundEven_mono {p q : ℚ} (hp : 0 ≤ p) (h : p ≤ q) : roundEven p ≤ roundEven q := by
  have hq : 0 ≤ q := hp.trans h
  rcases (Nat.floor_le_floor h).lt_or_eq with hlt | heq
  · calc roundEven p ≤ ⌊p⌋₊ + 1 := roundEven_le (by exact_mod_cast (Nat.lt_floor_add_one p).le) hp
      _ ≤ ⌊q⌋₊ := hlt
      _ ≤ roundEven q := le_roundEven (Nat.floor_le hq)
  · -- both are rounded from the same floor, by the fraction
    rcases lt_trichotomy p (⌊q⌋₊ + 1 / 2) with hbelow | hhalf | habove
    · rw [roundEven, heq, if_pos hbelow]
      exact le_roundEven (Nat.floor_le hq)
    · have hnot : ¬q < ⌊q⌋₊ + 1 / 2 := not_lt.mpr (hhalf ▸ h)
      rw [roundEven, roundEven, heq, if_neg hhalf.not_lt, if_pos hhalf, if_neg hnot]
      split
      · exact le_rfl
      · omega
    · have habove' := lt_of_lt_of_le habove h
      rw [roundEven, roundEven, heq, if_neg habove.not_gt, if_neg habove.ne',
        if_neg habove'.not_gt, if_neg habove'.ne']

theorem lastPlace_mono {p q : ℚ} (hp : 0 < p) (h : p ≤ q) : lastPlace p ≤ lastPlace q := by
  have hlog : Int.log 2 p ≤ Int.log 2 q := Int.log_mono_right hp h
  unfold lastPlace
  omega

theorem value_nearest_mono {p q : ℚ} (hp : 2 ^ 52 ≤ p) (h : p ≤ q)
    (hpfin : (nearest p).isFinite = true) (hqfin : (nearest q).isFinite = true) :
    value (nearest p) ≤ value (nearest q) := by
  have hpos : 0 < p := lt_of_lt_of_le (by norm_num) hp
  rw [value_nearest_of_large hp hpfin, value_nearest_of_large (hp.trans h) hqfin]
  have hunit := two_zpow_pos (lastPlace q)
  rcases (lastPlace_mono hpos h).lt_or_eq with hlt | heq
  · -- the last place is higher, and with it everything that is kept
    have hround : (roundEven (p / 2 ^ lastPlace p) : ℚ) ≤ 2 ^ 53 := by
      exact_mod_cast roundEven_lastPlace_le hpos
    have hround' : (2 : ℚ) ^ 52 ≤ roundEven (q / 2 ^ lastPlace q) := by
      exact_mod_cast le_roundEven_lastPlace (hp.trans h)
    calc (roundEven (p / 2 ^ lastPlace p) : ℚ) * 2 ^ lastPlace p
        ≤ 2 ^ 53 * 2 ^ lastPlace p := mul_le_mul_of_nonneg_right hround (two_zpow_pos _).le
      _ = 2 ^ 52 * 2 ^ (lastPlace p + 1) := by rw [zpow_add_one₀ (by norm_num)]; ring
      _ ≤ 2 ^ 52 * 2 ^ lastPlace q := by
          apply mul_le_mul_of_nonneg_left _ (by norm_num)
          exact zpow_le_zpow_right₀ (by norm_num) (by omega)
      _ ≤ roundEven (q / 2 ^ lastPlace q) * 2 ^ lastPlace q :=
          mul_le_mul_of_nonneg_right hround' hunit.le
  · rw [heq]
    refine mul_le_mul_of_nonneg_right ?_ hunit.le
    have := roundEven_mono (p := p / 2 ^ lastPlace q) (q := q / 2 ^ lastPlace q) (by positivity)
      (div_le_div_of_nonneg_right h hunit.le)
    exact_mod_cast this

theorem value_le_nearest {x : Float} {q : ℚ} (hx : x.isFinite = true) (hpos : 0 < value x)
    (hq : 2 ^ 52 ≤ q) (hle : value x ≤ q) (hfin : (nearest q).isFinite = true) :
    value x ≤ value (nearest q) := by
  have hself : nearest (value x) = x := nearest_of_close hx hpos (by simpa using hpos)
  rcases le_or_gt (2 ^ 52) (value x) with hlarge | hsmall
  · have hmono := value_nearest_mono hlarge hle (by rwa [hself]) hfin
    rwa [hself] at hmono
  · have hround : (2 : ℚ) ^ 52 ≤ roundEven (q / 2 ^ lastPlace q) := by
      exact_mod_cast le_roundEven_lastPlace hq
    have hunit : (1 : ℚ) ≤ 2 ^ lastPlace q := one_le_zpow₀ (by norm_num) (lastPlace_of_large hq).1
    rw [value_nearest_of_large hq hfin]
    nlinarith

theorem lt_infinity {x : Float} (hx : x.isFinite = true) : x < infinity ∧ ¬ infinity ≤ x := by
  have hinf : infinity.toModel.unpack = .infinity .positive := by rfl
  change (decide (x.toModel.unpack.lt infinity.toModel.unpack = true)) = true ∧
    ¬ (decide (infinity.toModel.unpack.le x.toModel.unpack = true)) = true
  rw [decide_eq_true_iff, decide_eq_true_iff, UnpackedFloat.lt, UnpackedFloat.le, hinf]
  rcases isFinite_iff.mp hx with ⟨s, hu⟩ | ⟨s, m, e, h, hu⟩ <;> rw [hu] <;> cases s <;>
    exact ⟨rfl, Bool.false_ne_true⟩

/-- Of the numbers that are not finite, only infinity is above a finite one. -/
theorem eq_infinity_of_lt {x y : Float} (hx : x.isFinite = false) (hy : y.isFinite = true)
    (h : y < x) : x = infinity := by
  change (decide (y.toModel.unpack.lt x.toModel.unpack = true)) = true at h
  rw [decide_eq_true_iff, UnpackedFloat.lt] at h
  change x.toModel.unpack.isFinite = false at hx
  cases hu : x.toModel.unpack with
  | infinity s =>
      cases s with
      | positive => exact eq_of_unpack hu
      | negative =>
          rw [hu] at h
          rcases isFinite_iff.mp hy with ⟨t, hy⟩ | ⟨t, m, e, hm, hy⟩ <;> rw [hy] at h <;>
            cases t <;> cases h
  | notANumber =>
      rw [hu] at h
      cases hcompare : y.toModel.unpack <;> rw [hcompare] at h <;> cases h
  | zero s =>
      rw [hu] at hx
      cases hx
  | finite s m e hm =>
      rw [hu] at hx
      cases hx

theorem ofNat_add_of_value {m n : ℕ} {y : Float} (hy : y.isFinite = true) (hvalue : value y = n)
    (h : m + n < 2 ^ 53) : Float.ofNat m + y = Float.ofNat (m + n) := by
  rcases Nat.eq_zero_or_pos (m + n) with hzero | hpos
  · obtain ⟨rfl, rfl⟩ : m = 0 ∧ n = 0 := by omega
    rcases eq_zero_of_value hy (by exact_mod_cast hvalue) with rfl | rfl
    · decide
    · decide
  · exact add_eq_ofNat (isFinite_ofNat (by omega)) (value_ofNat (by omega)) hy hvalue hpos

theorem Sums.add_natural {x y : Float} {m n : ℕ} (h : Sums x m) (hy : y.isFinite = true)
    (hvalue : value y = n) : Sums (x + y) (m + n) := by
  rcases Nat.eq_zero_or_pos n with rfl | hn
  · rw [Nat.add_zero]
    rcases h with ⟨hm, rfl⟩ | ⟨hm, ⟨hfin, k, hk, hxk⟩ | rfl⟩
    · rw [ofNat_add_of_value hy hvalue hm]
      exact .inl ⟨hm, rfl⟩
    · rw [add_eq_ofNat hfin hxk hy hvalue (by omega)]
      exact sums_ofNat (by omega) (by omega)
    · rw [infinity_add (.inl hy)]
      exact .inr ⟨hm, .inr rfl⟩
  · exact h.add hy hvalue hn

namespace IsCount

variable {x y z : Float}

theorem le_add (hx : IsCount x) (hy : IsCount y) : x ≤ x + y := by
  rcases id hx with hnat | rfl
  · obtain ⟨hxfin, m, hxval⟩ := isNatural_iff.mp hnat
    rcases hy with hnat' | rfl
    · obtain ⟨hyfin, n, hyval⟩ := isNatural_iff.mp hnat'
      rcases Nat.eq_zero_or_pos m with rfl | hm
      · -- zero is below every number of natural value
        rcases hx.add (.inl hnat') with hsum | hsum
        · obtain ⟨hfin, k, hval⟩ := isNatural_iff.mp hsum
          rw [le_iff_value hxfin hfin, hxval, hval, Nat.cast_zero]
          exact k.cast_nonneg
        · rw [hsum]
          exact le_infinity hxfin
      · rw [add_eq_ofNat hxfin hxval hyfin hyval (by omega)]
        rcases lt_or_ge (m + n) (2 ^ 53) with hlt | hge
        · rw [le_iff_value hxfin (isFinite_ofNat hlt), hxval, value_ofNat hlt]
          exact_mod_cast Nat.le_add_right m n
        · rcases ofNat_of_large hge with ⟨-, hfin, -⟩ | ⟨-, hinf⟩
          · have hlarge : (2 : ℚ) ^ 52 ≤ (m + n : ℕ) := by
              exact_mod_cast le_trans (by norm_num) hge
            rw [le_iff_value hxfin hfin]
            rw [ofNat_eq_nearest (by omega)] at hfin ⊢
            refine value_le_nearest hxfin (by rw [hxval]; exact_mod_cast hm) hlarge ?_ hfin
            rw [hxval]
            exact_mod_cast Nat.le_add_right m n
          · rw [hinf]
            exact le_infinity hxfin
    · rw [add_infinity (.inl hxfin)]
      exact le_infinity hxfin
  · rw [infinity_add hy.isFinite_or]
    decide

theorem not_lt_iff (hx : IsCount x) (hz : z.isFinite = true) : ¬ z < x ↔ x ≤ z := by
  rcases hx.isFinite_or with hfin | rfl
  · rw [lt_iff_value hz hfin, le_iff_value hfin hz, not_lt]
  · exact iff_of_false (not_not.mpr (lt_infinity hz).1) (lt_infinity hz).2

theorem lt_of_lt_of_le (hx : IsCount x) (hy : IsCount y) (hz : z.isFinite = true) (h : z < x)
    (hle : x ≤ y) : z < y := by
  rcases hy.isFinite_or with hyfin | rfl
  · rcases hx.isFinite_or with hxfin | rfl
    · rw [lt_iff_value hz hxfin] at h
      rw [le_iff_value hxfin hyfin] at hle
      rw [lt_iff_value hz hyfin]
      exact h.trans_le hle
    · exact absurd hle (lt_infinity hyfin).2
  · exact (lt_infinity hz).1

/-- Adding up natural numbers never comes below a number that was exceeded. -/
theorem lt_foldl_add {lengths : List Float} (hx : IsCount x) (hz : z.isFinite = true)
    (hlengths : ∀ y ∈ lengths, isNatural y = true) (h : z < x) :
    z < lengths.foldl (fun sum length => sum + length) x := by
  induction lengths generalizing x with
  | nil => exact h
  | cons y lengths ih =>
      have hy : IsCount y := .inl (hlengths y (.head _))
      have hstep := hx.lt_of_lt_of_le (hx.add hy) hz h (hx.le_add hy)
      exact ih (hx.add hy) (fun y hy => hlengths y (.tail _ hy)) hstep

end IsCount

end OpenQasm.Number

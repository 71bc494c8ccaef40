import OpenQasm.Proofs.Number.Rounding

/-!
# Arithmetic rounds to the nearest number

Sums, products and quotients of positive numbers, and decimals with a power of ten, come out as the
number nearest to the exact rational. Only positive operands occur: signs are read and written
apart from the digits.
-/
namespace OpenQasm.Number

open Float.Model Float.Model.UnpackedFloat

theorem round_eq {m : ℕ} (e : ℤ) (hm : 0 < m) :
    UnpackedFloat.round .binary64 .positive m e = nearestParts (m * 2 ^ e) := by
  have hq := mul_zpow_pos hm e
  have hlog := log_mul_zpow e hm.ne'
  unfold UnpackedFloat.round decreaseExponent
  dsimp only
  rw [targetExponent_eq]
  generalize hk : (e - max (totalExponent m e - 53) (-1074)).toNat = k
  apply roundWithAccuracy_eq hq
  · have hexact := describes_exact (m <<< k)
    convert hexact using 1
    rw [zpow_sub₀ (by norm_num), Nat.shiftLeft_eq, zpow_natCast]
    push_cast
    field_simp
  · unfold totalExponent at hk
    unfold lastPlace
    omega

theorem normalize_eq {m : ℕ} (e : ℤ) (s : Sign) (hm : 0 < m) :
    UnpackedFloat.normalize .binary64 m e s = nearestParts (m * 2 ^ e) := by
  unfold UnpackedFloat.normalize
  rw [compare_gt_iff_gt.mpr (by exact_mod_cast hm)]
  dsimp only
  rw [Int.toNat_natCast, round_eq e hm]

theorem decreaseExponent_value (m : ℕ) {e t : ℤ} (h : t ≤ e) :
    ((decreaseExponent m e t).1 : ℚ) * 2 ^ t = m * 2 ^ e := by
  have he : (2 : ℚ) ^ e = 2 ^ (e - t).toNat * 2 ^ t := by
    rw [← zpow_natCast, ← zpow_add₀ (by norm_num), Int.toNat_of_nonneg (by omega), sub_add_cancel]
  change ((m <<< (e - t).toNat : ℕ) : ℚ) * 2 ^ t = _
  rw [Nat.shiftLeft_eq, he]
  push_cast
  ring

theorem add_eq {m₁ m₂ : ℕ} {e₁ e₂ : ℤ} (h₁ : 0 < m₁) (h₂ : 0 < m₂) :
    UnpackedFloat.add .binary64 (.finite .positive m₁ e₁ h₁) (.finite .positive m₂ e₂ h₂) =
      nearestParts (m₁ * 2 ^ e₁ + m₂ * 2 ^ e₂) := by
  have hv₁ := decreaseExponent_value m₁ (min_le_left e₁ e₂)
  have hv₂ := decreaseExponent_value m₂ (min_le_right e₁ e₂)
  change UnpackedFloat.normalize .binary64 (((decreaseExponent m₁ e₁ (min e₁ e₂)).1 : ℤ) +
    ((decreaseExponent m₂ e₂ (min e₁ e₂)).1 : ℤ)) (min e₁ e₂) .positive = _
  have hpos : 0 < (decreaseExponent m₁ e₁ (min e₁ e₂)).1 +
      (decreaseExponent m₂ e₂ (min e₁ e₂)).1 := by
    have hm : 0 < m₁ <<< (e₁ - min e₁ e₂).toNat := by
      rw [Nat.shiftLeft_eq]
      positivity
    exact Nat.add_pos_left hm _
  rw [← Nat.cast_add, normalize_eq _ _ hpos, ← hv₁, ← hv₂]
  congr 1
  push_cast
  ring

theorem mul_eq {m₁ m₂ : ℕ} {e₁ e₂ : ℤ} (h₁ : 0 < m₁) (h₂ : 0 < m₂)
    (hbits : 52 ≤ (m₁ * m₂).log2) :
    UnpackedFloat.mul .binary64 (.finite .positive m₁ e₁ h₁) (.finite .positive m₂ e₂ h₂) =
      nearestParts (m₁ * 2 ^ e₁ * (m₂ * 2 ^ e₂)) := by
  have hm : 0 < m₁ * m₂ := Nat.mul_pos h₁ h₂
  have hval : (m₁ : ℚ) * 2 ^ e₁ * (m₂ * 2 ^ e₂) = (m₁ * m₂ : ℕ) * 2 ^ (e₁ + e₂) := by
    rw [zpow_add₀ (by norm_num)]
    push_cast
    ring
  have hlog := log_mul_zpow (e₁ + e₂) hm.ne'
  rw [hval]
  change roundWithAccuracy .binary64 .positive (m₁ * m₂) (e₁ + e₂) .exact = _
  apply roundWithAccuracy_eq (mul_zpow_pos hm _)
  · rw [mul_div_cancel_right₀ _ (two_zpow_pos _).ne']
    exact describes_exact _
  · unfold lastPlace
    omega

theorem describes_inexact {n : ℕ} {f : ℚ} (hpos : 0 < f) (hlt : f < 1) :
    Describes (ExtendedMantissa.ofMantissaAndAccuracy n (.inexact (compare f (1 / 2))))
      (n + f) := by
  rcases lt_trichotomy f (1 / 2) with h | h | h
  · rw [compare_lt_iff_lt.mpr h]
    constructor <;> simp only [ExtendedMantissa.ofMantissaAndAccuracy]
    · linarith
    · linarith
    · simp
      linarith
    · simp only [ne_eq, add_eq_left, add_right_inj, true_iff]
      exact ⟨hpos.ne', h.ne⟩
  · rw [compare_eq_iff_eq.mpr h]
    constructor <;> simp only [ExtendedMantissa.ofMantissaAndAccuracy]
    · linarith
    · linarith
    · simp [h]
    · simp [h]
  · rw [compare_gt_iff_gt.mpr h]
    constructor <;> simp only [ExtendedMantissa.ofMantissaAndAccuracy]
    · linarith
    · linarith
    · simp only [true_iff]
      linarith
    · simp only [ne_eq, add_eq_left, add_right_inj, true_iff]
      exact ⟨hpos.ne', h.ne'⟩

theorem compare_half {a b : ℕ} (hb : 0 < b) :
    compare (2 * a) b = compare ((a : ℚ) / b) (1 / 2) := by
  have hbq : (0 : ℚ) < b := by exact_mod_cast hb
  rcases lt_trichotomy (2 * a) b with h | h | h
  · have hq : (2 : ℚ) * a < b := by exact_mod_cast h
    rw [compare_lt_iff_lt.mpr h, compare_lt_iff_lt.mpr]
    rw [div_lt_div_iff₀ hbq (by norm_num)]
    linarith
  · have hq : (2 : ℚ) * a = b := by exact_mod_cast h
    rw [compare_eq_iff_eq.mpr h, compare_eq_iff_eq.mpr]
    rw [div_eq_div_iff hbq.ne' (by norm_num)]
    linarith
  · have hq : (b : ℚ) < 2 * a := by exact_mod_cast h
    rw [compare_gt_iff_gt.mpr h, compare_gt_iff_gt.mpr]
    rw [div_lt_div_iff₀ (by norm_num) hbq]
    linarith

theorem describes_quotient (a : ℕ) {b : ℕ} (hb : 0 < b) :
    Describes (ExtendedMantissa.ofMantissaAndAccuracy (a / b) (accuracyOfFraction (a % b) b))
      ((a : ℚ) / b) := by
  have hbq : (0 : ℚ) < b := by exact_mod_cast hb
  have hval : (a : ℚ) / b = (a / b : ℕ) + (a % b : ℕ) / (b : ℚ) := by
    have hdiv : ((a % b : ℕ) : ℚ) + b * ((a / b : ℕ) : ℚ) = a := by
      exact_mod_cast Nat.mod_add_div a b
    rw [← hdiv]
    field_simp
    ring
  rw [hval]
  unfold accuracyOfFraction
  by_cases h0 : a % b = 0
  · rw [if_pos h0, h0]
    simpa using describes_exact (a / b)
  · rw [if_neg h0, compare_half hb]
    apply describes_inexact
    · exact div_pos (by exact_mod_cast Nat.pos_of_ne_zero h0) hbq
    · rw [div_lt_one hbq]
      exact_mod_cast Nat.mod_lt a hb

theorem div_eq {m₁ m₂ : ℕ} {e₁ e₂ : ℤ} (h₁ : 0 < m₁) (h₂ : 0 < m₂) :
    UnpackedFloat.div .binary64 (.finite .positive m₁ e₁ h₁) (.finite .positive m₂ e₂ h₂) =
      nearestParts (m₁ * 2 ^ e₁ / (m₂ * 2 ^ e₂)) := by
  have hv₁ := mul_zpow_pos h₁ e₁
  have hv₂ := mul_zpow_pos h₂ e₂
  have hq : 0 < (m₁ : ℚ) * 2 ^ e₁ / (m₂ * 2 ^ e₂) := div_pos hv₁ hv₂
  -- the quotient has at least the difference of the sizes, less one
  have hlog : totalExponent m₁ e₁ - totalExponent m₂ e₂ - 1 ≤
      Int.log 2 ((m₁ : ℚ) * 2 ^ e₁ / (m₂ * 2 ^ e₂)) := by
    have hlow := Int.zpow_log_le_self (b := 2) (by norm_num) hv₁
    have hhigh := Int.lt_zpow_succ_log_self (b := 2) (by norm_num) ((m₂ : ℚ) * 2 ^ e₂)
    rw [log_mul_zpow e₁ h₁.ne'] at hlow
    rw [log_mul_zpow e₂ h₂.ne'] at hhigh
    rw [← Int.zpow_le_iff_le_log (by norm_num) hq, le_div_iff₀ hv₂]
    push_cast at hlow hhigh ⊢
    unfold totalExponent
    calc (2 : ℚ) ^ ((m₁.log2 : ℤ) + 1 + e₁ - (m₂.log2 + 1 + e₂) - 1) * (m₂ * 2 ^ e₂)
        ≤ 2 ^ ((m₁.log2 : ℤ) + 1 + e₁ - (m₂.log2 + 1 + e₂) - 1) * 2 ^ ((m₂.log2 : ℤ) + e₂ + 1) :=
          mul_le_mul_of_nonneg_left hhigh.le (two_zpow_pos _).le
      _ = 2 ^ ((m₁.log2 : ℤ) + e₁) := by
          rw [← zpow_add₀ (by norm_num)]
          congr 1
          ring
      _ ≤ m₁ * 2 ^ e₁ := hlow
  change roundWithAccuracy .binary64 .positive (divCore .binary64 m₁ e₁ m₂ e₂).1
    (divCore .binary64 m₁ e₁ m₂ e₂).2.1 (divCore .binary64 m₁ e₁ m₂ e₂).2.2 = _
  unfold divCore
  dsimp only
  rw [targetExponent_eq]
  generalize ht : min (e₁ - e₂)
    (max (totalExponent m₁ e₁ - totalExponent m₂ e₂ - 53) (-1074)) = t
  apply roundWithAccuracy_eq hq
  · have hk : e₁ = e₂ + t + (e₁ - e₂ - t).toNat := by omega
    convert describes_quotient (m₁ <<< (e₁ - e₂ - t).toNat) h₂ using 1
    generalize (e₁ - e₂ - t).toNat = k at hk ⊢
    subst hk
    rw [Nat.shiftLeft_eq, zpow_add₀ (by norm_num), zpow_add₀ (by norm_num), zpow_natCast]
    push_cast
    have := two_zpow_pos e₂
    have := two_zpow_pos t
    field_simp
  · unfold lastPlace
    omega

end OpenQasm.Number

import OpenQasm.Number.Decimal
import OpenQasm.Proofs.Number.Arithmetic

/-!
# Decimals round to the nearest number

`Decimal.toFloat` takes one of several ways to a number: a product or quotient with an exact power
of ten, a long multiplication or division, or no calculation at all if the decimal is far outside
the range of numbers. Each way ends at the number nearest to the decimal's value, so decimals of
equal value read as the same number, however they are spelled.
-/
namespace OpenQasm.Number

open Float.Model Float.Model.UnpackedFloat

theorem nearest_unpack {q : ℚ} {m : ℕ} {e : ℤ} {h : 0 < m}
    (hq : nearestParts q = .finite .positive m e h) (hf : InFormat m e) :
    (nearest q).toModel.unpack = .finite .positive m e h := by
  unfold nearest
  rw [hq]
  exact unpack_pack_finite h hf

theorem exists_inFormat_natCast {n : ℕ} (hpos : 0 < n) (hlt : n < 2 ^ 53) :
    ∃ m e, InFormat m e ∧ 2 ^ 52 ≤ m ∧ (m : ℚ) * 2 ^ e = n := by
  have hlog : n.log2 < 53 := (Nat.log2_lt hpos.ne').mpr hlt
  have hlow := Nat.log2_self_le hpos.ne'
  have hhigh := Nat.lt_log2_self (n := n)
  have hm : 2 ^ 52 ≤ n * 2 ^ (52 - n.log2) := by
    calc 2 ^ 52 = 2 ^ n.log2 * 2 ^ (52 - n.log2) := by rw [← pow_add]; congr 1; omega
      _ ≤ n * 2 ^ (52 - n.log2) := Nat.mul_le_mul_right _ hlow
  have hm' : n * 2 ^ (52 - n.log2) < 2 ^ 53 := by
    calc n * 2 ^ (52 - n.log2) < 2 ^ (n.log2 + 1) * 2 ^ (52 - n.log2) :=
          Nat.mul_lt_mul_of_pos_right hhigh (by positivity)
      _ = 2 ^ 53 := by rw [← pow_add]; congr 1; omega
  refine ⟨n * 2 ^ (52 - n.log2), n.log2 - 52, ⟨by omega, hm', by omega, by omega, .inl hm⟩, hm, ?_⟩
  have hexp : ((n.log2 : ℤ) - 52) = -((52 - n.log2 : ℕ) : ℤ) := by omega
  rw [hexp, zpow_neg, zpow_natCast]
  push_cast
  field_simp

theorem toFloat_toUInt64 {n : ℕ} (hpos : 0 < n) (hlt : n < 2 ^ 64) :
    n.toUInt64.toFloat = nearest n := by
  have hn : n.toUInt64.toNat = n := by simpa using Nat.mod_eq_of_lt hlt
  unfold UInt64.toFloat Float.Model.ofUInt64 UnpackedFloat.ofUInt64 UnpackedFloat.ofNat
    UnpackedFloat.ofInt nearest
  rw [hn, normalize_eq 0 _ hpos]
  simp

/-- Whether a number has a power of ten as its exact value. -/
def isPowerOfTen (x : Float) (i : ℕ) : Bool :=
  match x.toModel.unpack with
  | .finite .positive m e _ =>
      2 ^ 52 ≤ m && m * 2 ^ e.toNat == 10 ^ i * 2 ^ (-e).toNat
  | _ => false

theorem isPowerOfTen_table :
    ∀ i : Fin 23, isPowerOfTen (Float.exactlyRepresentablePowersOfTen.getD i 0) i = true := by
  decide +kernel

theorem unpack_of_isPowerOfTen {x : Float} {i : ℕ} (h : isPowerOfTen x i = true) :
    ∃ m e hm, x.toModel.unpack = .finite .positive m e hm ∧ 2 ^ 52 ≤ m ∧
      (m : ℚ) * 2 ^ e = 10 ^ i := by
  unfold isPowerOfTen at h
  split at h
  next m e hm hu =>
    rw [Bool.and_eq_true, decide_eq_true_eq, beq_iff_eq] at h
    obtain ⟨hge, heq⟩ := h
    refine ⟨m, e, hm, hu, hge, ?_⟩
    have hq : (m : ℚ) * 2 ^ e.toNat = 10 ^ i * 2 ^ (-e).toNat := by exact_mod_cast heq
    have he : e = (e.toNat : ℤ) - (-e).toNat := by omega
    rw [he, zpow_sub₀ (by norm_num), zpow_natCast, zpow_natCast, mul_div_assoc', hq]
    field_simp
  · cases h

/-- The exact factors of the short way: the coefficient and a power of ten. -/
theorem unpack_factors {m e : ℕ} (hm : 0 < m) (hlt : m < 2 ^ 53) (he : e ≤ 22) :
    (∃ n k h, m.toUInt64.toFloat.toModel.unpack = .finite .positive n k h ∧ 2 ^ 52 ≤ n ∧
      (n : ℚ) * 2 ^ k = m) ∧
    ∃ n k h, (Float.exactlyRepresentablePowersOfTen.getD e 0).toModel.unpack =
      .finite .positive n k h ∧ 2 ^ 52 ≤ n ∧ (n : ℚ) * 2 ^ k = 10 ^ e := by
  constructor
  · obtain ⟨n, k, hf, hn, hval⟩ := exists_inFormat_natCast hm hlt
    refine ⟨n, k, hf.pos, ?_, hn, hval⟩
    rw [toFloat_toUInt64 hm (by omega), ← hval]
    exact nearest_unpack (nearestParts_of_inFormat hf) hf
  · exact unpack_of_isPowerOfTen (isPowerOfTen_table ⟨e, by omega⟩)

theorem le_log2_mul {a b k : ℕ} (ha : 2 ^ k ≤ a) (hb : 0 < b) : k ≤ (a * b).log2 := by
  have hpos : 0 < a * b := Nat.mul_pos (lt_of_lt_of_le (by positivity) ha) hb
  apply (Nat.le_log2 hpos.ne').mpr
  exact le_trans ha (Nat.le_mul_of_pos_right a hb)

/-- The long way: the coefficient is multiplied or divided by a power of ten in full. -/
theorem ofScientific_parts {m : ℕ} {e : ℤ} (hm : 0 < m) (hhigh : e ≤ 2 ^ 11)
    (hlow : -(2 ^ 11 + m.log2 : ℤ) ≤ e) :
    UnpackedFloat.ofScientific .binary64 m e = nearestParts (m * 10 ^ e) := by
  have hwidth : Format.mantissaBits .binary64 = 53 := rfl
  have hnot_high : ¬ e > 2 ^ Format.exponentBits .binary64 := not_lt.mpr hhigh
  have hnot_low : ¬ e < -((2 ^ Format.exponentBits .binary64 : ℤ) + m.log2) := not_lt.mpr hlow
  unfold UnpackedFloat.ofScientific
  rw [dif_neg hm.ne', if_neg hnot_high, if_neg hnot_low]
  by_cases he : 0 ≤ e
  · have hbits : 2 ^ 52 ≤ m <<< Format.mantissaBits .binary64 := by
      rw [Nat.shiftLeft_eq, hwidth]
      omega
    rw [if_pos he, mul_eq _ _ (le_log2_mul hbits (by positivity))]
    congr 1
    have hexp : (10 : ℚ) ^ e = 10 ^ e.toNat := by
      rw [← zpow_natCast, Int.toNat_of_nonneg he]
    rw [Nat.shiftLeft_eq, hwidth, zpow_neg, zpow_natCast, hexp]
    push_cast
    field_simp
    norm_num
  · have hexp : (10 : ℚ) ^ e = (10 ^ (-e).toNat)⁻¹ := by
      rw [← zpow_natCast, Int.toNat_of_nonneg (by omega), zpow_neg, inv_inv]
    rw [if_neg he, div_eq, hexp]
    congr 1
    push_cast
    simp [div_eq_mul_inv]

theorem ofScientific_eq_mul {m e : ℕ} (hm : 0 < m) (he : e ≤ 2 ^ 11) :
    Float.ofScientific m false e = nearest (m * 10 ^ e) := by
  unfold Float.ofScientific
  split
  next h =>
    obtain ⟨⟨n, k, hn, hu, hbits, hval⟩, n', k', hn', hu', -, hval'⟩ := unpack_factors hm h.1 h.2
    rw [Array.getElem_eq_getD 0]
    change Float.ofModel (Float.Model.pack (UnpackedFloat.mul .binary64 _ _)) = _
    rw [hu, hu', mul_eq hn hn' (le_log2_mul hbits hn'), hval, hval']
    rfl
  next h =>
    have hparts := ofScientific_parts (e := e) hm (by exact_mod_cast he) (by omega)
    change Float.ofModel (Float.Model.pack (UnpackedFloat.ofScientific .binary64 m (e : ℤ))) = _
    rw [hparts, zpow_natCast]
    rfl

theorem ofScientific_eq_div {m e : ℕ} (hm : 0 < m) (he : e ≤ 2 ^ 11 + m.log2) :
    Float.ofScientific m true e = nearest (m / 10 ^ e) := by
  unfold Float.ofScientific
  split
  next h =>
    obtain ⟨⟨n, k, hn, hu, -, hval⟩, n', k', hn', hu', -, hval'⟩ := unpack_factors hm h.1 h.2
    rw [Array.getElem_eq_getD 0]
    change Float.ofModel (Float.Model.pack (UnpackedFloat.div .binary64 _ _)) = _
    rw [hu, hu', div_eq hn hn', hval, hval']
    rfl
  next h =>
    have hparts := ofScientific_parts (e := -(e : ℤ)) hm (by omega) (by omega)
    change Float.ofModel (Float.Model.pack
      (UnpackedFloat.ofScientific .binary64 m (Int.negOfNat e))) = _
    rw [Int.negOfNat_eq, Int.ofNat_eq_natCast, hparts, zpow_neg, zpow_natCast, ← div_eq_mul_inv]
    rfl

theorem nearest_of_small {q : ℚ} (hpos : 0 < q) (h : q * 2 ^ 1075 < 1) : nearest q = 0 := by
  have hlog : Int.log 2 q < -1075 := by
    rw [← Int.lt_zpow_iff_log_lt (by norm_num) hpos]
    rw [zpow_neg, inv_eq_one_div, lt_div_iff₀ (by positivity)]
    exact h
  have hplace : lastPlace q = -1074 := by
    unfold lastPlace
    omega
  have hround : roundEven (q / 2 ^ (-1074 : ℤ)) = 0 := by
    apply roundEven_eq (by positivity)
    · have hq : 0 < q / 2 ^ (-1074 : ℤ) := by positivity
      exact lt_trans (by norm_num) hq
    · rw [zpow_neg, div_inv_eq_mul, Nat.cast_zero]
      have h2 : (2 : ℚ) ^ 1075 = 2 * 2 ^ (1074 : ℤ) := by
        rw [← zpow_natCast, ← zpow_one_add₀ (by norm_num)]
        norm_num
      rw [h2] at h
      linarith
  unfold nearest nearestParts
  rw [hplace]
  simp only [hround, dif_pos]
  decide

theorem pack_of_high {m : ℕ} {e : ℤ} (h : 0 < m) (he : 972 ≤ e) :
    Float.Model.pack (.finite .positive m e h) = Float.Model.pack (.infinity .positive) := by
  have hinfinity : UnpackedFloat.pack .binary64 (.finite .positive m e h) =
      UnpackedFloat.pack .binary64 (.infinity .positive) := by
    have hbias : (Format.exponentBias .binary64 : ℤ) = 1023 := rfl
    apply if_pos
    change 2 ^ 11 ≤ (e + (Format.exponentBias .binary64 : ℤ) + (52 : ℕ)).toNat + 1
    rw [hbias]
    omega
  simp only [Float.Model.pack, hinfinity]

theorem nearest_of_large {q : ℚ} (h : 2 ^ 1024 ≤ q) : nearest q = infinity := by
  have hpos : 0 < q := lt_of_lt_of_le (by positivity) h
  have hlog : 1024 ≤ Int.log 2 q := by
    rw [← Int.zpow_le_iff_le_log (by norm_num) hpos]
    exact_mod_cast h
  have hplace : lastPlace q = Int.log 2 q - 52 := by
    unfold lastPlace
    omega
  have hone : 1 ≤ q / 2 ^ lastPlace q := by
    rw [one_le_div (two_zpow_pos _)]
    calc (2 : ℚ) ^ lastPlace q ≤ 2 ^ Int.log 2 q := by
          apply zpow_le_zpow_right₀ (by norm_num)
          omega
      _ ≤ q := by exact_mod_cast Int.zpow_log_le_self (by norm_num) hpos
  have hround : roundEven (q / 2 ^ lastPlace q) ≠ 0 := by
    have hfloor : 1 ≤ ⌊q / 2 ^ lastPlace q⌋₊ := Nat.one_le_floor_iff _ |>.mpr hone
    unfold roundEven
    split
    · omega
    · split <;> omega
  have hinf : infinity = .ofModel (Float.Model.pack (.infinity .positive)) := by decide
  unfold nearest nearestParts
  simp only [hround, dif_neg, not_false_eq_true]
  rw [hinf]
  split
  · rw [pack_of_high _ (by omega)]
  · rw [pack_of_high _ (by omega)]

end OpenQasm.Number

namespace OpenQasm.Decimal

open Number

def value (d : Decimal) : ℚ :=
  d.coefficient * 10 ^ d.exponent

theorem lt_pow_length_digits (n : ℕ) : n < 10 ^ (digits n).length :=
  (Nat.length_toDigits_le_iff (by norm_num) Nat.length_toDigits_pos).mp le_rfl

theorem pow_length_digits_le {n : ℕ} (h : 0 < n) : 10 ^ ((digits n).length - 1) ≤ n := by
  by_cases hone : (digits n).length = 1
  · rw [hone]
    exact h
  · have hpos : 0 < (digits n).length := Nat.length_toDigits_pos
    by_contra hlt
    have hle := (Nat.length_toDigits_le_iff (b := 10) (n := n) (k := (digits n).length - 1)
      (by norm_num) (by omega)).mpr (by omega)
    change (digits n).length ≤ _ at hle
    omega

theorem value_bounds (d : Decimal) (h : 0 < d.coefficient) :
    (10 : ℚ) ^ ((digits d.coefficient).length + d.exponent - 1) ≤ d.value ∧
      d.value < 10 ^ ((digits d.coefficient).length + d.exponent) := by
  have hlength : 0 < (digits d.coefficient).length := Nat.length_toDigits_pos
  have hlow : (10 : ℚ) ^ ((digits d.coefficient).length - 1) ≤ d.coefficient := by
    exact_mod_cast pow_length_digits_le h
  have hhigh : (d.coefficient : ℚ) < 10 ^ (digits d.coefficient).length := by
    exact_mod_cast lt_pow_length_digits d.coefficient
  have hpos : (0 : ℚ) < 10 ^ d.exponent := by positivity
  unfold value
  constructor
  · have hsplit : ((digits d.coefficient).length : ℤ) + d.exponent - 1 =
        ((digits d.coefficient).length - 1 : ℕ) + d.exponent := by omega
    rw [hsplit, zpow_add₀ (by norm_num), zpow_natCast]
    exact mul_le_mul_of_nonneg_right hlow hpos.le
  · rw [zpow_add₀ (by norm_num), zpow_natCast]
    exact mul_lt_mul_of_pos_right hhigh hpos

/-- A decimal reads as the number next to its value. -/
theorem toFloat_eq_nearest (d : Decimal) (h : 0 < d.coefficient) : d.toFloat = nearest d.value := by
  obtain ⟨hlow, hhigh⟩ := d.value_bounds h
  have hlength : 0 < (digits d.coefficient).length := Nat.length_toDigits_pos
  have hpos : 0 < d.value := lt_of_lt_of_le (by positivity) hlow
  unfold toFloat
  rw [if_neg h.ne']
  dsimp only
  split
  next htop =>
    rw [nearest_of_large]
    have hpow : (2 : ℕ) ^ 1024 ≤ 10 ^ 310 := by decide +kernel
    calc (2 : ℚ) ^ 1024 ≤ 10 ^ 310 := by exact_mod_cast hpow
      _ = 10 ^ (310 : ℤ) := by rw [← zpow_natCast]; rfl
      _ ≤ 10 ^ ((digits d.coefficient).length + d.exponent - 1) := by
          apply zpow_le_zpow_right₀ (by norm_num)
          omega
      _ ≤ d.value := hlow
  next htop =>
    split
    next hbottom =>
      rw [nearest_of_small hpos]
      have hpow : (2 : ℕ) ^ 1075 ≤ 10 ^ 331 := by decide +kernel
      have hpow' : (2 : ℚ) ^ 1075 ≤ 10 ^ 331 := by exact_mod_cast hpow
      have htiny : (10 : ℚ) ^ ((digits d.coefficient).length + d.exponent) ≤ 10 ^ (-331 : ℤ) := by
        apply zpow_le_zpow_right₀ (by norm_num)
        omega
      calc d.value * 2 ^ 1075 < 10 ^ (-331 : ℤ) * 10 ^ 331 := by
            apply mul_lt_mul_of_lt_of_le_of_pos_of_nonneg (lt_of_lt_of_le hhigh htiny) hpow'
              (by positivity) (by positivity)
        _ = 1 := by
            rw [zpow_neg, ← zpow_natCast]
            exact inv_mul_cancel₀ (by positivity)
    next hbottom =>
      split
      next hneg =>
        have hlog : (digits d.coefficient).length - 1 ≤ d.coefficient.log2 := by
          rw [Nat.le_log2 h.ne']
          calc 2 ^ ((digits d.coefficient).length - 1) ≤ 10 ^ ((digits d.coefficient).length - 1) :=
                Nat.pow_le_pow_left (by norm_num) _
            _ ≤ d.coefficient := pow_length_digits_le h
        rw [ofScientific_eq_div h (by omega), value, div_eq_mul_inv, ← zpow_natCast, ← zpow_neg,
          Int.toNat_of_nonneg (by omega), neg_neg]
      next hnonneg =>
        rw [ofScientific_eq_mul h (by omega), value, ← zpow_natCast,
          Int.toNat_of_nonneg (by omega)]

end OpenQasm.Decimal

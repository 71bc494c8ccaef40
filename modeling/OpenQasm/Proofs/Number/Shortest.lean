import OpenQasm.Number.Text
import OpenQasm.Proofs.Number.Naturals

/-!
# Shortest decimals read back

`Decimal.shortest` tries grids of one to seventeen digits and takes the first with a neighbour that
reads back. The search cannot fail: at seventeen digits the nearer neighbour differs from the number
by less than a part in `2 ^ 54`, and rounding removes such a difference. For a natural number the
search ends at the latest where the grid has unit one, so its text consists of its own digits.
-/
namespace OpenQasm.Number

open Float.Model Float.Model.UnpackedFloat

theorem isFinite_of_beq {x y : Float} (hx : x.isFinite = true) (h : (y == x) = true) :
    y.isFinite = true := by
  change y.toModel.unpack.beq x.toModel.unpack = true at h
  change y.toModel.unpack.isFinite = true
  unfold UnpackedFloat.beq at h
  rcases isFinite_iff.mp hx with ⟨s, hu⟩ | ⟨s, m, e, hm, hu⟩ <;> rw [hu] at h <;>
    cases hy : y.toModel.unpack with
    | infinity s' => cases s' <;> rw [hy] at h <;> simp [UnpackedFloat.compare] at h
    | notANumber => rw [hy] at h; simp [UnpackedFloat.compare] at h
    | zero s' => rfl
    | finite s' m' e' hm' => rfl

theorem beq_self {x : Float} (hx : x.isFinite = true) : (x == x) = true :=
  (beq_iff_value hx hx).mpr rfl

theorem eq_of_beq_pos {x y : Float} (hx : x.isFinite = true) (hpos : 0 < value x)
    (h : (y == x) = true) : y = x := by
  have hy := isFinite_of_beq hx h
  have hval := (beq_iff_value hy hx).mp h
  exact (eq_of_value_eq hx hy hpos hval.symm).symm

/-- A rational close to a positive number rounds to it. -/
theorem nearest_of_close {x : Float} {q : ℚ} (hx : x.isFinite = true) (hpos : 0 < value x)
    (h : |q - value x| * 2 ^ 54 < value x) : nearest q = x := by
  obtain ⟨m, e, hm, hu, hval⟩ := unpack_of_value_pos hx hpos
  have hf := inFormat_of_unpack hu
  rw [hval] at h
  apply eq_of_unpack
  rw [nearest_unpack (nearestParts_of_close hf h) hf, hu]

theorem le_value_nearest {q : ℚ} (hq : 2 ^ 53 ≤ q) (hfin : (nearest q).isFinite = true) :
    2 ^ 53 ≤ value (nearest q) := by
  have hlarge : 2 ^ 52 ≤ q := le_trans (by norm_num) hq
  have hpos : 0 < q := lt_of_lt_of_le (by norm_num) hq
  have hplace : 1 ≤ lastPlace q := by
    have hlog : 53 ≤ Int.log 2 q := by
      rw [← Int.zpow_le_iff_le_log (by norm_num) hpos]
      exact_mod_cast hq
    unfold lastPlace
    omega
  obtain ⟨m, e, h, hp, hm, hlt, he, -⟩ := nearestParts_of_large hlarge
  have hexp : e ≤ 971 := by
    by_contra hhigh
    unfold nearest at hfin
    rw [hp, pack_of_high h (by omega)] at hfin
    exact absurd hfin (by decide)
  have hu := nearest_unpack hp ⟨h, hlt, by omega, hexp, .inl hm⟩
  have hval : value (nearest q) = m * 2 ^ e := by
    rw [value_of_finite hu]
    simp [Sign.apply]
  calc (2 : ℚ) ^ 53 = 2 ^ 52 * 2 ^ (1 : ℤ) := by norm_num
    _ ≤ (m : ℚ) * 2 ^ e := by
        apply mul_le_mul (by exact_mod_cast hm) _ (by positivity) (by positivity)
        exact zpow_le_zpow_right₀ (by norm_num) (hplace.trans he)
    _ = value (nearest q) := hval.symm

theorem eq_of_nearest_natCast {m n : ℕ} (hm : 0 < m) (hn : n < 2 ^ 53)
    (h : nearest m = Float.ofNat n) : m = n := by
  have hlt : m < 2 ^ 53 := by
    by_contra hge
    have hfin : (nearest m).isFinite = true := by rw [h]; exact isFinite_ofNat hn
    have hval := le_value_nearest (q := m) (by exact_mod_cast not_lt.mp hge) hfin
    rw [h, value_ofNat hn] at hval
    have : 2 ^ 53 ≤ n := by exact_mod_cast hval
    omega
  rw [← ofNat_eq_nearest hm] at h
  exact ofNat_inj hlt hn h

end OpenQasm.Number

namespace OpenQasm.Decimal

open Number

theorem pow_pointOf_le {num den : ℕ} (hn : 0 < num) (hd : 0 < den) :
    (10 : ℚ) ^ (pointOf num den - 1) ≤ num / den := by
  have hdq : (0 : ℚ) < den := by exact_mod_cast hd
  have hnq : (0 : ℚ) < num := by exact_mod_cast hn
  unfold pointOf
  split
  next hle =>
    have hpos : 0 < num / den := Nat.div_pos hle hd
    have hlength : 0 < (digits (num / den)).length := Nat.length_toDigits_pos
    have hexp : ((digits (num / den)).length : ℤ) - 1 = ((digits (num / den)).length - 1 : ℕ) := by
      omega
    rw [hexp, zpow_natCast, le_div_iff₀ hdq]
    have hnat : 10 ^ ((digits (num / den)).length - 1) * den ≤ num :=
      calc 10 ^ ((digits (num / den)).length - 1) * den ≤ num / den * den :=
            Nat.mul_le_mul_right _ (pow_length_digits_le hpos)
        _ ≤ num := Nat.div_mul_le_self num den
    exact_mod_cast hnat
  next hlt =>
    have hexp : (1 : ℤ) - (digits (den / num)).length - 1 = -((digits (den / num)).length : ℤ) := by
      omega
    rw [hexp, zpow_neg, zpow_natCast, le_div_iff₀ hdq, inv_mul_le_iff₀ (by positivity)]
    have hnat : den ≤ 10 ^ (digits (den / num)).length * num :=
      ((Nat.div_lt_iff_lt_mul hn).mp (lt_pow_length_digits _)).le
    exact_mod_cast hnat

theorem scaled_eq (num : ℕ) {den : ℕ} (hd : 0 < den) (p : ℤ) :
    0 < (scaled num den p).2 ∧
      ((scaled num den p).1 : ℚ) / (scaled num den p).2 = num / den / 10 ^ p := by
  have hdq : (den : ℚ) ≠ 0 := by exact_mod_cast hd.ne'
  unfold scaled
  simp only [Nat.pow_eq]
  split
  next hp =>
    refine ⟨by positivity, ?_⟩
    push_cast
    rw [← zpow_natCast, Int.toNat_of_nonneg hp, div_div]
  next hp =>
    refine ⟨hd, ?_⟩
    push_cast
    rw [← zpow_natCast, Int.toNat_of_nonneg (by omega), zpow_neg]
    field_simp

theorem onGrid?_isSome {x : Float} {num den : ℕ} {p : ℤ} (hx : x.isFinite = true)
    (h : (⟨(scaled num den p).1 / (scaled num den p).2, p⟩ : Decimal).toFloat = x ∨
      (⟨(scaled num den p).1 / (scaled num den p).2 + 1, p⟩ : Decimal).toFloat = x) :
    (onGrid? x num den p).isSome = true := by
  unfold onGrid?
  dsimp only
  rcases h with h | h <;> rw [h, beq_self hx]
  · split <;> (repeat' split) <;> simp_all
  · split <;> (repeat' split) <;> simp_all

/-- A multiple of `10 ^ p` within half a unit of a number with seventeen digits before that place
reads as the number. -/
theorem toFloat_of_near {x : Float} {n : ℕ} {p : ℤ} (hx : x.isFinite = true)
    (hpos : 0 < Number.value x) (hn : 0 < n) (hfine : 10 ^ 16 * 10 ^ p ≤ Number.value x)
    (hnear : |(n : ℚ) * 10 ^ p - Number.value x| ≤ 10 ^ p / 2) :
    (⟨n, p⟩ : Decimal).toFloat = x := by
  have hunit : (0 : ℚ) < 10 ^ p := by positivity
  rw [toFloat_eq_nearest _ hn]
  apply nearest_of_close hx hpos
  calc |(n : ℚ) * 10 ^ p - Number.value x| * 2 ^ 54 ≤ 10 ^ p / 2 * 2 ^ 54 :=
        mul_le_mul_of_nonneg_right hnear (by positivity)
    _ < 10 ^ 16 * 10 ^ p := by linarith
    _ ≤ Number.value x := hfine

/-- On a fine enough grid one of the two neighbours of a number reads back. -/
theorem onGrid?_isSome_of_fine {x : Float} {num den : ℕ} {p : ℤ} (hx : x.isFinite = true)
    (hpos : 0 < Number.value x) (hd : 0 < den) (hval : (num : ℚ) / den = Number.value x)
    (hfine : 10 ^ 16 * 10 ^ p ≤ Number.value x) : (onGrid? x num den p).isSome = true := by
  obtain ⟨hb, hscaled⟩ := scaled_eq num hd p
  have hunit : (0 : ℚ) < 10 ^ p := by positivity
  rw [hval] at hscaled
  apply onGrid?_isSome hx
  generalize hbelow : (scaled num den p).1 / (scaled num den p).2 = below
  have hlow : (below : ℚ) * 10 ^ p ≤ Number.value x := by
    rw [← le_div_iff₀ hunit, ← hscaled, ← hbelow, ← Nat.floor_div_eq_div (K := ℚ)]
    exact Nat.floor_le (by positivity)
  have hhigh : Number.value x < (below + 1) * 10 ^ p := by
    rw [← div_lt_iff₀ hunit, ← hscaled, ← hbelow, ← Nat.floor_div_eq_div (K := ℚ)]
    exact Nat.lt_floor_add_one _
  have hbelow_pos : 0 < below := by
    by_contra hzero
    rw [Nat.eq_zero_of_not_pos hzero] at hhigh
    push_cast at hhigh
    linarith
  rcases le_or_gt (Number.value x - below * 10 ^ p) (10 ^ p / 2) with hnear | hnear
  · left
    apply toFloat_of_near hx hpos hbelow_pos hfine
    rw [abs_of_nonpos (by linarith)]
    linarith
  · right
    apply toFloat_of_near hx hpos (Nat.succ_pos _) hfine
    push_cast
    rw [abs_of_nonneg (by linarith)]
    linarith

/-- The shortest decimal of a positive number reads back as that number. -/
theorem toFloat_shortest {x : Float} (hx : x.isFinite = true) (hpos : 0 < Number.value x) :
    (shortest x).toFloat = x := by
  obtain ⟨hd, hval⟩ := quotient_eq_value hx
  rw [abs_of_pos hpos] at hval
  have hn : 0 < (dyadic x).quotient.1 := by
    by_contra hzero
    have : (dyadic x).quotient.1 = 0 := by omega
    rw [this] at hval
    norm_num at hval
    linarith
  have hpoint := pow_pointOf_le hn hd
  unfold shortest
  generalize (dyadic x).quotient = q at *
  dsimp only
  split
  next d hfound =>
    obtain ⟨k, -, hk⟩ := List.exists_of_findSome?_eq_some hfound
    exact eq_of_beq_pos hx hpos (toFloat_of_onGrid? hk)
  next hnone =>
    -- the last grid has seventeen digits
    have hlast := List.findSome?_eq_none_iff.mp hnone 16 (by decide)
    have hsome := onGrid?_isSome_of_fine (p := pointOf q.1 q.2 - 17) hx hpos hd hval (by
      rw [hval] at hpoint
      refine le_trans (le_of_eq ?_) hpoint
      rw [← zpow_natCast, ← zpow_add₀ (by norm_num)]
      congr 1
      push_cast
      ring)
    norm_num at hlast
    rw [hlast] at hsome
    cases hsome

theorem exponent_of_onGrid? {x : Float} {num den : ℕ} {p : ℤ} {d : Decimal}
    (h : onGrid? x num den p = some d) : d.exponent = p := by
  simp only [onGrid?] at h
  split at h <;> (repeat' split at h) <;> cases h <;> rfl

theorem coefficient_shortest_pos {x : Float} (hx : x.isFinite = true)
    (hpos : 0 < Number.value x) : 0 < (shortest x).coefficient := by
  by_contra hzero
  have hback := toFloat_shortest hx hpos
  unfold toFloat at hback
  rw [if_pos (Nat.eq_zero_of_not_pos hzero)] at hback
  rw [← hback, value_zero] at hpos
  exact lt_irrefl 0 hpos

/-- The search for the shortest decimal of a natural number ends at the place of ones. -/
theorem exponent_shortest_ofNat {n : ℕ} (hpos : 0 < n) (hlt : n < 2 ^ 53) :
    0 ≤ (shortest (Float.ofNat n)).exponent := by
  have hfin := isFinite_ofNat hlt
  obtain ⟨hd, hquot⟩ := quotient_eq_value hfin
  rw [value_ofNat hlt, abs_of_nonneg (by positivity)] at hquot
  have hlength : (digits n).length ≤ 16 :=
    (Nat.length_toDigits_le_iff (by norm_num) (by norm_num)).mpr (by omega)
  have hlength_pos : 0 < (digits n).length := Nat.length_toDigits_pos
  unfold shortest
  generalize (dyadic (Float.ofNat n)).quotient = q at *
  have hnum : q.1 = n * q.2 := by
    rw [div_eq_iff (by exact_mod_cast hd.ne')] at hquot
    exact_mod_cast hquot
  have hdiv : q.1 / q.2 = n := by rw [hnum, Nat.mul_div_cancel _ hd]
  have hpoint : pointOf q.1 q.2 = (digits n).length := by
    unfold pointOf
    rw [if_pos (by rw [hnum]; exact Nat.le_mul_of_pos_left _ hpos), hdiv]
  have hones : (onGrid? (Float.ofNat n) q.1 q.2 0).isSome = true := by
    apply onGrid?_isSome hfin
    left
    have hscaled : scaled q.1 q.2 0 = (q.1, q.2) := by simp [scaled]
    rw [hscaled, hdiv, toFloat_eq_nearest _ hpos, ofNat_eq_nearest hpos]
    simp [Decimal.value]
  dsimp only
  rw [hpoint]
  split
  next d hfound =>
    obtain ⟨before, k, after, hrange, hk, hbefore⟩ := List.findSome?_eq_some_iff.mp hfound
    rw [exponent_of_onGrid? hk]
    by_contra hneg
    -- were the grid finer than one, the grid of ones would have come before
    have hmem : (digits n).length - 1 ∈ before := by
      have horder := List.pairwise_lt_range (n := 17)
      have hin : (digits n).length - 1 ∈ List.range 17 := List.mem_range.mpr (by omega)
      rw [hrange] at horder hin
      have hlater := (List.pairwise_cons.mp (List.pairwise_append.mp horder).2.1).1
      rcases List.mem_append.mp hin with hin | hin
      · exact hin
      · rcases List.mem_cons.mp hin with heq | hin
        · omega
        · have := hlater _ hin
          omega
    have hnone := hbefore _ hmem
    rw [show ((digits n).length : ℤ) - (((digits n).length - 1 : ℕ) + 1) = 0 by omega] at hnone
    rw [hnone] at hones
    cases hones
  next hnone =>
    have hzero := List.findSome?_eq_none_iff.mp hnone ((digits n).length - 1)
      (List.mem_range.mpr (by omega))
    rw [show ((digits n).length : ℤ) - (((digits n).length - 1 : ℕ) + 1) = 0 by omega] at hzero
    rw [hzero] at hones
    cases hones

theorem shortest_ofNat {n : ℕ} (hpos : 0 < n) (hlt : n < 2 ^ 53) :
    ∃ c k : ℕ, 0 < c ∧ c * 10 ^ k = n ∧ shortest (Float.ofNat n) = ⟨c, k⟩ := by
  have hfin := isFinite_ofNat hlt
  have hval : 0 < Number.value (Float.ofNat n) := by
    rw [value_ofNat hlt]
    exact_mod_cast hpos
  have hback := toFloat_shortest hfin hval
  have hexponent := exponent_shortest_ofNat hpos hlt
  have hcoefficient := coefficient_shortest_pos hfin hval
  generalize shortest (Float.ofNat n) = d at *
  obtain ⟨c, e⟩ := d
  lift e to ℕ using hexponent
  refine ⟨c, e, hcoefficient, ?_, rfl⟩
  rw [toFloat_eq_nearest _ hcoefficient] at hback
  apply eq_of_nearest_natCast (Nat.mul_pos hcoefficient (by positivity)) hlt
  rw [← hback, Decimal.value]
  push_cast
  rw [zpow_natCast]

end OpenQasm.Decimal

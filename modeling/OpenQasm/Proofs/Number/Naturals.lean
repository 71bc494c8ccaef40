import OpenQasm.Number.Functions
import OpenQasm.Proofs.Number.Decimals

/-!
# Natural numbers among the numbers

Indices, lengths and counts are natural numbers below `2 ^ 53`. In that range every natural number
is a number of its own, sums are exact, and the tests `isWhole` and `isNatural` find exactly the
numbers with such a value. Only zero has two numbers, told apart by their sign.
-/
namespace OpenQasm.Number

open Float.Model Float.Model.UnpackedFloat

theorem ofNat_eq_nearest {n : ℕ} (h : 0 < n) : Float.ofNat n = nearest n := by
  have hparts := ofScientific_eq_mul (e := 0) h (by norm_num)
  rw [pow_zero, mul_one] at hparts
  exact hparts

theorem unpack_ofNat {n : ℕ} (hpos : 0 < n) (hlt : n < 2 ^ 53) :
    ∃ m e h, (Float.ofNat n).toModel.unpack = .finite .positive m e h ∧ (m : ℚ) * 2 ^ e = n := by
  obtain ⟨m, e, hf, -, hval⟩ := exists_inFormat_natCast hpos hlt
  refine ⟨m, e, hf.pos, ?_, hval⟩
  rw [ofNat_eq_nearest hpos, ← hval]
  exact nearest_unpack (nearestParts_of_inFormat hf) hf

theorem isFinite_ofNat {n : ℕ} (h : n < 2 ^ 53) : (Float.ofNat n).isFinite = true := by
  rcases Nat.eq_zero_or_pos n with rfl | hpos
  · decide
  · obtain ⟨m, e, hm, hu, -⟩ := unpack_ofNat hpos h
    exact isFinite_iff.mpr (.inr ⟨_, m, e, hm, hu⟩)

theorem value_ofNat {n : ℕ} (h : n < 2 ^ 53) : value (Float.ofNat n) = n := by
  rcases Nat.eq_zero_or_pos n with rfl | hpos
  · have hu : (Float.ofNat 0).toModel.unpack = .zero .positive := by rfl
    rw [value_of_zero hu, Nat.cast_zero]
  · obtain ⟨m, e, hm, hu, hval⟩ := unpack_ofNat hpos h
    rw [value_of_finite hu, ← hval]
    simp [Sign.apply]

theorem ofNat_lt_ofNat {m n : ℕ} (hm : m < 2 ^ 53) (hn : n < 2 ^ 53) :
    Float.ofNat m < Float.ofNat n ↔ m < n := by
  rw [lt_iff_value (isFinite_ofNat hm) (isFinite_ofNat hn), value_ofNat hm, value_ofNat hn,
    Nat.cast_lt]

theorem ofNat_le_ofNat {m n : ℕ} (hm : m < 2 ^ 53) (hn : n < 2 ^ 53) :
    Float.ofNat m ≤ Float.ofNat n ↔ m ≤ n := by
  rw [le_iff_value (isFinite_ofNat hm) (isFinite_ofNat hn), value_ofNat hm, value_ofNat hn,
    Nat.cast_le]

theorem ofNat_beq_ofNat {m n : ℕ} (hm : m < 2 ^ 53) (hn : n < 2 ^ 53) :
    (Float.ofNat m == Float.ofNat n) = true ↔ m = n := by
  rw [beq_iff_value (isFinite_ofNat hm) (isFinite_ofNat hn), value_ofNat hm, value_ofNat hn,
    Nat.cast_inj]

theorem ofNat_inj {m n : ℕ} (hm : m < 2 ^ 53) (hn : n < 2 ^ 53)
    (h : Float.ofNat m = Float.ofNat n) : m = n := by
  have hval := congrArg value h
  rw [value_ofNat hm, value_ofNat hn] at hval
  exact_mod_cast hval

/-- The quotient that whole parts are read off is the magnitude of the value. -/
theorem quotient_eq_value {x : Float} (hx : x.isFinite = true) :
    0 < (dyadic x).quotient.2 ∧
      ((dyadic x).quotient.1 : ℚ) / (dyadic x).quotient.2 = |value x| := by
  have hden (d : Dyadic) : 0 < d.quotient.2 ∧
      (d.quotient.1 : ℚ) / d.quotient.2 = d.mantissa * 2 ^ d.exponent := by
    unfold Dyadic.quotient
    simp only [Nat.pow_eq]
    split
    next he =>
      refine ⟨by norm_num, ?_⟩
      push_cast
      rw [← zpow_natCast, Int.toNat_of_nonneg he, div_one]
    next he =>
      refine ⟨by positivity, ?_⟩
      push_cast
      rw [← zpow_natCast, Int.toNat_of_nonneg (by omega), zpow_neg, div_inv_eq_mul]
  obtain ⟨hpos, hval⟩ := hden (dyadic x)
  refine ⟨hpos, ?_⟩
  rw [hval]
  rcases isFinite_iff.mp hx with ⟨s, hu⟩ | ⟨s, m, e, h, hu⟩
  · rw [dyadic_of_unpack_zero hu, value_of_zero hu]
    simp
  · have hmag := mul_zpow_pos h e
    rw [dyadic_of_unpack hu, value_of_finite hu]
    cases s with
    | negative => simp [Sign.apply, abs_of_pos hmag]
    | positive => simp [Sign.apply, abs_of_pos hmag]

theorem dyadic_isWhole_iff {x : Float} (hx : x.isFinite = true) :
    (dyadic x).isWhole = true ↔ ∃ n : ℕ, |value x| = n := by
  obtain ⟨hpos, hval⟩ := quotient_eq_value hx
  have hposq : ((dyadic x).quotient.2 : ℚ) ≠ 0 := by exact_mod_cast hpos.ne'
  unfold Dyadic.isWhole
  rw [beq_iff_eq, ← Nat.dvd_iff_mod_eq_zero, ← hval]
  constructor
  · rintro ⟨n, hn⟩
    refine ⟨n, ?_⟩
    rw [hn, div_eq_iff hposq]
    push_cast
    ring
  · rintro ⟨n, hn⟩
    refine ⟨n, ?_⟩
    rw [div_eq_iff hposq] at hn
    rw [mul_comm]
    exact_mod_cast hn

theorem isFinite_zero : (0 : Float).isFinite = true := by
  decide

theorem value_zero : value 0 = 0 :=
  value_of_zero (s := .positive) rfl

theorem isNatural_iff {x : Float} :
    isNatural x = true ↔ x.isFinite = true ∧ ∃ n : ℕ, value x = n := by
  unfold isNatural isWhole
  rw [Bool.and_eq_true, Bool.and_eq_true, Bool.not_eq_true', decide_eq_false_iff_not, and_assoc]
  refine and_congr_right fun hx => ?_
  rw [dyadic_isWhole_iff hx, lt_iff_value hx isFinite_zero, value_zero, not_lt]
  constructor
  · rintro ⟨⟨n, hn⟩, hnonneg⟩
    exact ⟨n, by rwa [abs_of_nonneg hnonneg] at hn⟩
  · rintro ⟨n, hn⟩
    have hnonneg : 0 ≤ value x := by rw [hn]; positivity
    exact ⟨⟨n, by rwa [abs_of_nonneg hnonneg]⟩, hnonneg⟩

theorem isFinite_one : (1 : Float).isFinite = true :=
  isFinite_ofNat (by norm_num)

theorem value_one : value 1 = 1 := by
  have := value_ofNat (n := 1) (by norm_num)
  rwa [Nat.cast_one] at this

theorem isPositive_iff {x : Float} :
    isPositive x = true ↔ x.isFinite = true ∧ ∃ n : ℕ, 0 < n ∧ value x = n := by
  unfold isPositive isWhole
  rw [Bool.and_eq_true, Bool.and_eq_true, Bool.not_eq_true', decide_eq_false_iff_not, and_assoc]
  refine and_congr_right fun hx => ?_
  rw [dyadic_isWhole_iff hx, lt_iff_value hx isFinite_one, value_one, not_lt]
  constructor
  · rintro ⟨⟨n, hn⟩, hone⟩
    rw [abs_of_nonneg (by linarith)] at hn
    rw [hn] at hone
    exact ⟨n, by exact_mod_cast hone, hn⟩
  · rintro ⟨n, hpos, hn⟩
    have hone : (1 : ℚ) ≤ n := by exact_mod_cast hpos
    rw [hn]
    exact ⟨⟨n, abs_of_nonneg (by positivity)⟩, hone⟩

theorem quotient_of_value {x : Float} {n : ℕ} (hx : x.isFinite = true) (h : value x = n) :
    0 < (dyadic x).quotient.2 ∧ (dyadic x).quotient.1 = n * (dyadic x).quotient.2 := by
  obtain ⟨hpos, hval⟩ := quotient_eq_value hx
  have hposq : ((dyadic x).quotient.2 : ℚ) ≠ 0 := by exact_mod_cast hpos.ne'
  rw [h, abs_of_nonneg (by positivity), div_eq_iff hposq] at hval
  exact ⟨hpos, by exact_mod_cast hval⟩

theorem truncate_of_value {x : Float} {n : ℕ} (hx : x.isFinite = true) (h : value x = n) :
    truncate x = n := by
  obtain ⟨hpos, hmul⟩ := quotient_of_value hx h
  have hquotient : (dyadic x).quotient.1 / (dyadic x).quotient.2 = n := by
    rw [hmul, Nat.mul_div_cancel _ hpos]
  unfold truncate Dyadic.truncate
  rw [hquotient]
  -- a sign can only stand before zero
  split
  next hneg =>
    have hzero : n = 0 := by
      rcases isFinite_iff.mp hx with ⟨s, hu⟩ | ⟨s, m, e, hm, hu⟩
      · rw [value_of_zero hu] at h
        exact_mod_cast h.symm
      · rw [dyadic_of_unpack hu] at hneg
        have hmag := mul_zpow_pos hm e
        rw [value_of_finite hu, eq_of_beq hneg] at h
        simp only [Sign.apply] at h
        push_cast at h
        have : (0 : ℚ) ≤ n := by positivity
        linarith
    rw [hzero]
    rfl
  next => rfl

theorem truncate_ofNat {n : ℕ} (h : n < 2 ^ 53) : truncate (Float.ofNat n) = n :=
  truncate_of_value (isFinite_ofNat h) (value_ofNat h)

/-- How many natural numbers lie below a finite number; none below one that is not finite. -/
def countBelow (x : Float) : ℕ :=
  if x.isFinite && 0 < x then
    let q := (dyadic x).quotient
    (q.1 + q.2 - 1) / q.2
  else 0

theorem lt_countBelow_iff {x : Float} (hx : x.isFinite = true) {k : ℕ} :
    k < countBelow x ↔ (k : ℚ) < value x := by
  obtain ⟨hden, hquotient⟩ := quotient_eq_value hx
  have hpositive : 0 < x ↔ 0 < value x := by
    rw [lt_iff_value isFinite_zero hx, value_zero]
  unfold countBelow
  rw [hx, Bool.true_and]
  by_cases hpos : 0 < value x
  · rw [decide_eq_true (hpositive.mpr hpos), if_pos rfl, ← abs_of_pos hpos, ← hquotient,
      lt_div_iff₀ (by exact_mod_cast hden)]
    dsimp only
    rw [Nat.lt_iff_add_one_le, Nat.le_div_iff_mul_le hden, add_mul, one_mul]
    norm_cast
    omega
  · rw [decide_eq_false (mt hpositive.mp hpos)]
    have hnonneg : (0 : ℚ) ≤ k := by positivity
    exact ⟨fun h => absurd h (Nat.not_lt_zero k), fun h => absurd (hnonneg.trans_lt h) hpos⟩

theorem countBelow_of_value {x : Float} {n : ℕ} (hx : x.isFinite = true) (h : value x = n) :
    countBelow x = n := by
  refine eq_of_forall_lt_iff fun k => ?_
  rw [lt_countBelow_iff hx, h, Nat.cast_lt]

theorem isNatural_ofNat {n : ℕ} (h : n < 2 ^ 53) : isNatural (Float.ofNat n) = true :=
  isNatural_iff.mpr ⟨isFinite_ofNat h, n, value_ofNat h⟩

theorem eq_ofNat {x : Float} {n : ℕ} (hx : x.isFinite = true) (h : value x = n) (hpos : 0 < n)
    (hlt : n < 2 ^ 53) : x = Float.ofNat n := by
  apply eq_of_value_eq hx (isFinite_ofNat hlt)
  · rw [h]
    exact_mod_cast hpos
  · rw [h, value_ofNat hlt]

theorem ofNat_add {m n : ℕ} (h : m + n < 2 ^ 53) :
    Float.ofNat m + Float.ofNat n = Float.ofNat (m + n) := by
  rcases Nat.eq_zero_or_pos m with rfl | hm
  · rcases Nat.eq_zero_or_pos n with rfl | hn
    · decide
    · obtain ⟨m', e', h', hu, -⟩ := unpack_ofNat hn (by omega)
      rw [Nat.zero_add]
      change Float.ofModel (Float.Model.pack (UnpackedFloat.add .binary64 (.zero .positive) _)) = _
      rw [hu]
      change Float.ofModel (Float.Model.pack (.finite .positive m' e' h')) = _
      rw [← hu, pack_unpack]
  · obtain ⟨m₁, e₁, h₁, hu₁, hval₁⟩ := unpack_ofNat hm (by omega)
    rcases Nat.eq_zero_or_pos n with rfl | hn
    · change Float.ofModel (Float.Model.pack (UnpackedFloat.add .binary64 _ (.zero .positive))) = _
      rw [hu₁]
      change Float.ofModel (Float.Model.pack (.finite .positive m₁ e₁ h₁)) = _
      rw [← hu₁, pack_unpack, Nat.add_zero]
    · obtain ⟨m₂, e₂, h₂, hu₂, hval₂⟩ := unpack_ofNat hn (by omega)
      change Float.ofModel (Float.Model.pack (UnpackedFloat.add .binary64 _ _)) = _
      rw [hu₁, hu₂, add_eq h₁ h₂, hval₁, hval₂, ofNat_eq_nearest (by omega), Nat.cast_add]
      rfl

theorem eq_zero_of_value {x : Float} (hx : x.isFinite = true) (h : value x = 0) :
    x = 0 ∨ x = -0 := by
  rcases isFinite_iff.mp hx with ⟨s, hu⟩ | ⟨s, m, e, hm, hu⟩
  · cases s with
    | positive => exact .inl (eq_of_unpack hu)
    | negative => exact .inr (eq_of_unpack hu)
  · have hmag := mul_zpow_pos hm e
    rw [value_of_finite hu] at h
    cases s <;> simp only [UnpackedFloat.Sign.apply] at h <;> push_cast at h <;> linarith

theorem isNaN_eq_false {x : Float} (hx : x.isFinite = true) : x.isNaN = false := by
  change x.toModel.unpack.isNaN = false
  rcases isFinite_iff.mp hx with ⟨s, hu⟩ | ⟨s, m, e, h, hu⟩ <;> rw [hu] <;> rfl

theorem zero_add_ofNat {n : ℕ} (h : n < 2 ^ 53) : 0 + Float.ofNat n = Float.ofNat n :=
  calc 0 + Float.ofNat n = Float.ofNat (0 + n) := ofNat_add (m := 0) (by omega)
    _ = Float.ofNat n := by rw [Nat.zero_add]

theorem add_one_eq {x : Float} {n : ℕ} (hx : x.isFinite = true) (h : value x = n)
    (hlt : n + 1 < 2 ^ 53) : x + 1 = Float.ofNat (n + 1) := by
  rcases Nat.eq_zero_or_pos n with rfl | hpos
  · rcases eq_zero_of_value hx (by exact_mod_cast h) with rfl | rfl
    · decide
    · decide
  · rw [eq_ofNat hx h hpos (by omega)]
    exact ofNat_add hlt

theorem larger_spec {x y : Float} (hx : x.isFinite = true) (hy : y.isFinite = true) :
    (larger x y).isFinite = true ∧ value (larger x y) = max (value x) (value y) := by
  unfold larger
  rw [isNaN_eq_false hx, isNaN_eq_false hy]
  simp only [Bool.or_self, Bool.false_eq_true, if_false, lt_iff_value hx hy, lt_iff_value hy hx]
  split
  next h => exact ⟨hy, (max_eq_right h.le).symm⟩
  next h =>
    split
    next h' => exact ⟨hx, (max_eq_left h'.le).symm⟩
    next h' =>
      have heq : value x = value y := le_antisymm (not_lt.mp h') (not_lt.mp h)
      split
      · exact ⟨hy, by rw [heq, max_self]⟩
      · exact ⟨hx, by rw [heq, max_self]⟩

theorem foldl_larger_spec {x : Float} {xs : List Float} (hx : x.isFinite = true)
    (hxs : ∀ y ∈ xs, y.isFinite = true) :
    (xs.foldl larger x).isFinite = true ∧
      ∀ b, value (xs.foldl larger x) ≤ b ↔ value x ≤ b ∧ ∀ y ∈ xs, value y ≤ b := by
  induction xs generalizing x with
  | nil => exact ⟨hx, by simp⟩
  | cons y xs ih =>
      obtain ⟨hfin, hval⟩ := larger_spec hx (hxs y (.head _))
      obtain ⟨hfold, hbound⟩ := ih hfin (fun z hz => hxs z (.tail _ hz))
      refine ⟨hfold, fun b => ?_⟩
      rw [List.foldl_cons, hbound, hval, max_le_iff]
      simp [and_assoc]

theorem foldl_larger_mem {x : Float} {xs : List Float} :
    (∀ y ∈ x :: xs, y.isFinite = true) → xs.foldl larger x ∈ x :: xs := by
  induction xs generalizing x with
  | nil => simp
  | cons y xs ih =>
      intro h
      have hmem : larger x y = x ∨ larger x y = y := by
        unfold larger
        rw [isNaN_eq_false (h x (.head _)), isNaN_eq_false (h y (.tail _ (.head _)))]
        simp only [Bool.or_self, Bool.false_eq_true, if_false]
        grind
      have hrest := ih (x := larger x y) (by
        intro z hz
        rcases List.mem_cons.mp hz with rfl | hz
        · rcases hmem with heq | heq <;> rw [heq]
          · exact h x (.head _)
          · exact h y (.tail _ (.head _))
        · exact h z (.tail _ (.tail _ hz)))
      rw [List.foldl_cons]
      rcases List.mem_cons.mp hrest with heq | hin
      · rw [heq]
        rcases hmem with heq | heq <;> rw [heq] <;> simp
      · exact .tail _ (.tail _ hin)

end OpenQasm.Number

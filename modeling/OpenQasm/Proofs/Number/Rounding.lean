import OpenQasm.Proofs.Number.Value

/-!
# Rounding to the nearest number

`nearest q` is the number next to a positive rational `q`, the one with an even mantissa if two are
equally near. It is written down on rationals: the unit of the last place is fixed by the size of
`q`, and the quotient by it is rounded. The calculation goes another way, by shifting a mantissa and
remembering in two bits what was shifted out. The two agree whenever the calculation starts from at
least as many bits as it keeps.
-/
namespace OpenQasm.Number

open Float.Model Float.Model.UnpackedFloat

/-- The natural number next to a rational, the even one of two. -/
def roundEven (q : ℚ) : ℕ :=
  if q < ⌊q⌋₊ + 1 / 2 then ⌊q⌋₊
  else if q = ⌊q⌋₊ + 1 / 2 then ⌊q⌋₊ + ⌊q⌋₊ % 2
  else ⌊q⌋₊ + 1

/-- The exponent of the last place that is kept of a positive rational. -/
def lastPlace (q : ℚ) : ℤ :=
  max (Int.log 2 q - 52) (-1074)

/-- The parts of the number next to a positive rational; the exponent may be too high to fit. -/
def nearestParts (q : ℚ) : UnpackedFloat :=
  let r := roundEven (q / 2 ^ lastPlace q)
  if h : r = 0 then .zero .positive
  else if r < 2 ^ 53 then .finite .positive r (lastPlace q) (Nat.pos_of_ne_zero h)
  else .finite .positive (2 ^ 52) (lastPlace q + 1) (by decide)

/-- The number next to a positive rational, infinite if that is too great. -/
def nearest (q : ℚ) : Float :=
  .ofModel (Float.Model.pack (nearestParts q))

/-- A mantissa with its two remainder bits describes a rational: its floor, whether the fraction is
at least a half, and whether it is neither nothing nor a half. -/
structure Describes (em : ExtendedMantissa) (q : ℚ) : Prop where
  le : (em.mantissa : ℚ) ≤ q
  lt : q < em.mantissa + 1
  round : em.roundBit = true ↔ (em.mantissa : ℚ) + 1 / 2 ≤ q
  sticky : em.stickyBit = true ↔ q ≠ em.mantissa ∧ q ≠ em.mantissa + 1 / 2

theorem describes_exact (m : ℕ) :
    Describes (ExtendedMantissa.ofMantissaAndAccuracy m .exact) m := by
  constructor <;> simp [ExtendedMantissa.ofMantissaAndAccuracy]

theorem Describes.floor {em : ExtendedMantissa} {q : ℚ} (h : Describes em q) :
    ⌊q⌋₊ = em.mantissa := by
  have hq : (0 : ℚ) ≤ q := le_trans (by positivity) h.le
  exact (Nat.floor_eq_iff hq).mpr ⟨h.le, h.lt⟩

theorem Describes.roundedMantissa {em : ExtendedMantissa} {q : ℚ} (h : Describes em q) :
    em.roundedMantissa = roundEven q := by
  have hfloor := h.floor
  obtain ⟨m, r, s⟩ := em
  obtain ⟨hle, hlt, hround, hsticky⟩ := h
  dsimp only at hfloor hle hlt hround hsticky
  unfold roundEven
  rw [hfloor]
  cases r with
  | false =>
      have hhalf : q < m + 1 / 2 := by simpa using hround
      rw [if_pos hhalf]
      cases s <;> rfl
  | true =>
      have hhalf : ¬ q < m + 1 / 2 := not_lt.mpr (hround.mp rfl)
      rw [if_neg hhalf]
      cases s with
      | false =>
          have heq : q = m + 1 / 2 := by
            by_contra hne
            have hm : q = m := by
              by_contra hm
              exact absurd (hsticky.mpr ⟨hm, hne⟩) (by decide)
            rw [hm] at hhalf
            linarith
          rw [if_pos heq]
          rfl
      | true =>
          rw [if_neg (hsticky.mp rfl).2]
          rfl

theorem Describes.shiftRightOne {em : ExtendedMantissa} {q : ℚ} (h : Describes em q) :
    Describes em.shiftRightOne (q / 2) := by
  obtain ⟨m, r, s⟩ := em
  obtain ⟨hle, hlt, hround, hsticky⟩ := h
  dsimp only at hle hlt hround hsticky
  -- the last bit of the mantissa becomes the bit for the half
  have hdiv : ((m / 2 : ℕ) : ℚ) = (m - (m % 2 : ℕ)) / 2 := by
    have := Nat.mod_add_div m 2
    have hq : ((m % 2 : ℕ) : ℚ) + 2 * ((m / 2 : ℕ) : ℚ) = m := by exact_mod_cast this
    linarith
  have hbits : (r || s) = true ↔ q ≠ m := by
    rw [Bool.or_eq_true, hround, hsticky]
    constructor
    · rintro (hge | hne) heq
      · rw [heq] at hge
        linarith
      · exact hne.1 heq
    · intro hne
      by_cases hhalf : q = m + 1 / 2
      · exact .inl hhalf.ge
      · exact .inr ⟨hne, hhalf⟩
  have hmod : m % 2 = 0 ∨ m % 2 = 1 := by omega
  unfold ExtendedMantissa.shiftRightOne
  constructor <;> dsimp only
  · rw [hdiv]
    have : (0 : ℚ) ≤ (m % 2 : ℕ) := by positivity
    linarith
  · rw [hdiv]
    rcases hmod with hm | hm <;> rw [hm] <;> push_cast <;> linarith
  · rw [hdiv]
    rcases hmod with hm | hm <;> rw [hm] <;> push_cast
    · simp
      linarith
    · simp
      linarith
  · rw [hbits, hdiv]
    rcases hmod with hm | hm <;> rw [hm] <;> push_cast
    · constructor
      · intro hne
        exact ⟨fun h => hne (by linarith), fun h => by linarith⟩
      · rintro ⟨hne, -⟩ heq
        exact hne (by rw [heq]; ring)
    · constructor
      · intro hne
        exact ⟨fun h => by linarith, fun h => hne (by linarith)⟩
      · rintro ⟨-, hne⟩ heq
        exact hne (by rw [heq]; ring)

theorem Describes.shiftRight {em : ExtendedMantissa} {q : ℚ} (h : Describes em q) (n : ℕ) :
    Describes (em >>> n) (q / 2 ^ n) := by
  change Describes (n.repeat ExtendedMantissa.shiftRightOne em) _
  induction n with
  | zero => simpa [Nat.repeat] using h
  | succ n ih =>
      have hstep := ih.shiftRightOne
      rw [div_div, ← pow_succ] at hstep
      exact hstep

theorem roundEven_le {q : ℚ} {n : ℕ} (h : q ≤ n) (hq : 0 ≤ q) : roundEven q ≤ n := by
  have hfloor : ⌊q⌋₊ ≤ n := Nat.floor_le_of_le h
  have hle := Nat.floor_le hq
  unfold roundEven
  split
  · exact hfloor
  next hhalf =>
    -- a fraction leaves the floor strictly below the bound
    have hlt : ⌊q⌋₊ < n := by
      rcases hfloor.lt_or_eq with hlt | heq
      · exact hlt
      · rw [heq] at hhalf
        linarith
    split
    · omega
    · omega

theorem lt_two_zpow_lastPlace {q : ℚ} : q < 2 ^ 53 * 2 ^ lastPlace q := by
  have hlog := Int.lt_zpow_succ_log_self (b := 2) (by norm_num) q
  push_cast at hlog
  calc q < 2 ^ (Int.log 2 q + 1) := hlog
    _ ≤ 2 ^ (53 + lastPlace q) := by
        apply zpow_le_zpow_right₀ (by norm_num)
        unfold lastPlace
        omega
    _ = 2 ^ 53 * 2 ^ lastPlace q := by
        rw [zpow_add₀ (by norm_num)]
        norm_num

theorem roundEven_lastPlace_le {q : ℚ} (hq : 0 < q) :
    roundEven (q / 2 ^ lastPlace q) ≤ 2 ^ 53 := by
  have hpos := two_zpow_pos (lastPlace q)
  apply roundEven_le
  · rw [div_le_iff₀ hpos]
    push_cast
    exact lt_two_zpow_lastPlace.le
  · positivity

/-- A mantissa and an exponent tell the binary size of what lies from them to the next mantissa. -/
theorem log_eq {q : ℚ} {m : ℕ} {e : ℤ} (hm : m ≠ 0) (hle : (m : ℚ) * 2 ^ e ≤ q)
    (hlt : q < (m + 1) * 2 ^ e) : Int.log 2 q = m.log2 + e := by
  have hpos := two_zpow_pos e
  have hq : 0 < q := lt_of_lt_of_le (mul_zpow_pos (Nat.pos_of_ne_zero hm) e) hle
  have hlow : (2 : ℚ) ^ m.log2 ≤ m := by exact_mod_cast Nat.log2_self_le hm
  have hhigh : ((m : ℚ) + 1) ≤ 2 ^ (m.log2 + 1) := by exact_mod_cast Nat.lt_log2_self (n := m)
  apply le_antisymm
  · rw [← Int.lt_add_one_iff, ← Int.lt_zpow_iff_log_lt (by norm_num) hq]
    push_cast
    calc q < (m + 1) * 2 ^ e := hlt
      _ ≤ 2 ^ (m.log2 + 1) * 2 ^ e := mul_le_mul_of_nonneg_right hhigh hpos.le
      _ = 2 ^ ((m.log2 : ℤ) + e + 1) := by
          rw [← zpow_natCast, ← zpow_add₀ (by norm_num)]
          congr 1
          push_cast
          ring
  · rw [← Int.zpow_le_iff_le_log (by norm_num) hq]
    push_cast
    calc (2 : ℚ) ^ ((m.log2 : ℤ) + e) = 2 ^ m.log2 * 2 ^ e := by
          rw [zpow_add₀ (by norm_num), zpow_natCast]
      _ ≤ m * 2 ^ e := mul_le_mul_of_nonneg_right hlow hpos.le
      _ ≤ q := hle

theorem log_mul_zpow {m : ℕ} (e : ℤ) (hm : m ≠ 0) :
    Int.log 2 ((m : ℚ) * 2 ^ e) = m.log2 + e :=
  log_eq hm le_rfl (mul_lt_mul_of_pos_right (by linarith) (two_zpow_pos e))

theorem targetExponent_eq (t : ℤ) : Format.binary64.targetExponent t = max (t - 53) (-1074) := rfl

/-- The place that the calculation aims at is the last place of the rational it stands for. -/
theorem targetExponent_eq_lastPlace {q : ℚ} {m : ℕ} {e : ℤ} (hq : 0 < q)
    (hle : (m : ℚ) * 2 ^ e ≤ q) (hlt : q < (m + 1) * 2 ^ e) (he : e ≤ lastPlace q) :
    Format.binary64.targetExponent (totalExponent m e) = lastPlace q := by
  rw [targetExponent_eq]
  unfold totalExponent
  by_cases hm : m = 0
  · -- all bits are below the place `e`, which is then the least one
    have hlog : Int.log 2 q < e := by
      rw [← Int.lt_zpow_iff_log_lt (by norm_num) hq]
      rw [hm] at hlt
      push_cast at hlt ⊢
      linarith
    rw [hm, Nat.log2_zero]
    unfold lastPlace at he ⊢
    omega
  · have hlog := log_eq hm hle hlt
    unfold lastPlace
    omega

/-- A rounded mantissa is shifted once more only if it grew by a bit. -/
theorem shiftToTargetExponent_rounded {r : ℕ} {t : ℤ} (hr : r ≤ 2 ^ 53) (ht : -1074 ≤ t) :
    (shiftToTargetExponent .binary64 r t .exact).1.mantissa =
        (if r < 2 ^ 53 then r else 2 ^ 52) ∧
      (shiftToTargetExponent .binary64 r t .exact).2 = (if r < 2 ^ 53 then t else t + 1) := by
  unfold shiftToTargetExponent shiftToExponent totalExponent
  dsimp only
  rw [targetExponent_eq]
  by_cases hlt : r < 2 ^ 53
  · have hlog : r.log2 < 53 := by
      by_cases h0 : r = 0
      · rw [h0]
        decide
      · exact (Nat.log2_lt h0).mpr hlt
    have hshift : (max ((r.log2 : ℤ) + 1 + t - 53) (-1074) - t).toNat = 0 := by omega
    rw [hshift, if_pos hlt, if_pos hlt]
    exact ⟨rfl, add_zero t⟩
  · have heq : r = 2 ^ 53 := by omega
    have hshift : (max (((2 ^ 53 : ℕ).log2 : ℤ) + 1 + t - 53) (-1074) - t).toNat = 1 := by
      rw [Nat.log2_two_pow]
      omega
    rw [heq, hshift, if_neg (lt_irrefl _), if_neg (lt_irrefl _)]
    exact ⟨rfl, rfl⟩

/-- Rounding a mantissa that describes a rational gives the number next to the rational. -/
theorem roundWithAccuracy_eq {q : ℚ} {m : ℕ} {e : ℤ} {a : Accuracy} (hq : 0 < q)
    (h : Describes (ExtendedMantissa.ofMantissaAndAccuracy m a) (q / 2 ^ e))
    (he : e ≤ lastPlace q) :
    roundWithAccuracy .binary64 .positive m e a = nearestParts q := by
  have hpos := two_zpow_pos e
  have hm : (ExtendedMantissa.ofMantissaAndAccuracy m a).mantissa = m := by
    rcases a with _ | o
    · rfl
    · cases o <;> rfl
  have hle := h.le
  have hlt := h.lt
  rw [hm, le_div_iff₀ hpos] at hle
  rw [hm, div_lt_iff₀ hpos] at hlt
  have htarget := targetExponent_eq_lastPlace hq hle hlt he
  have hfirst : (shiftToTargetExponent .binary64 m e a).1.roundedMantissa =
      roundEven (q / 2 ^ lastPlace q) := by
    unfold shiftToTargetExponent shiftToExponent
    rw [htarget]
    have hshifted := (h.shiftRight (lastPlace q - e).toNat).roundedMantissa
    rw [hshifted, div_div]
    congr 2
    rw [← zpow_natCast, ← zpow_add₀ (by norm_num)]
    congr 1
    omega
  have hsecond : (shiftToTargetExponent .binary64 m e a).2 = lastPlace q := by
    unfold shiftToTargetExponent shiftToExponent
    rw [htarget]
    dsimp only
    omega
  have hplace : -1074 ≤ lastPlace q := le_max_right _ _
  have hcarry := shiftToTargetExponent_rounded (roundEven_lastPlace_le hq) hplace
  unfold roundWithAccuracy nearestParts
  dsimp only
  rw [hfirst, hsecond]
  simp only [hcarry.1, hcarry.2]
  by_cases h0 : roundEven (q / 2 ^ lastPlace q) = 0
  · simp [h0]
  · by_cases hr : roundEven (q / 2 ^ lastPlace q) < 2 ^ 53
    · simp only [hr, if_true]
    · simp only [hr, if_false, h0, dif_neg, not_false_eq_true]
      rfl

theorem roundEven_eq {q : ℚ} {n : ℕ} (hq : 0 ≤ q) (hlow : n - 1 / 2 < q) (hhigh : q < n + 1 / 2) :
    roundEven q = n := by
  have hle := Nat.floor_le hq
  have hlt := Nat.lt_floor_add_one q
  have hn : n = ⌊q⌋₊ ∨ n = ⌊q⌋₊ + 1 := by
    have h1 : (n : ℚ) < ⌊q⌋₊ + 2 := by linarith
    have h2 : (⌊q⌋₊ : ℚ) < n + 1 := by linarith
    have h1' : n < ⌊q⌋₊ + 2 := by exact_mod_cast h1
    have h2' : ⌊q⌋₊ < n + 1 := by exact_mod_cast h2
    omega
  unfold roundEven
  rcases hn with hn | hn
  · rw [hn] at hhigh
    rw [if_pos hhigh, hn]
  · have hcast : (n : ℚ) = ⌊q⌋₊ + 1 := by exact_mod_cast hn
    rw [if_neg (by linarith), if_neg (by intro h; linarith), hn]

theorem nearestParts_eq {q : ℚ} {r : ℕ} {t : ℤ} (ht : lastPlace q = t)
    (hr : roundEven (q / 2 ^ t) = r) (hpos : 0 < r) (hlt : r < 2 ^ 53) :
    nearestParts q = .finite .positive r t hpos := by
  subst ht hr
  unfold nearestParts
  simp only [hpos.ne', hlt, dif_neg, not_false_eq_true, if_true]

theorem nearestParts_carry {q : ℚ} {t : ℤ} (ht : lastPlace q = t)
    (hr : roundEven (q / 2 ^ t) = 2 ^ 53) :
    nearestParts q = .finite .positive (2 ^ 52) (t + 1) (by decide) := by
  subst ht
  unfold nearestParts
  simp only [hr]
  rfl

theorem log_lt_iff {q : ℚ} (hq : 0 < q) (k : ℕ) (e : ℤ) :
    Int.log 2 q < k + e ↔ q / 2 ^ e < 2 ^ k := by
  rw [← Int.lt_zpow_iff_log_lt (by norm_num) hq, div_lt_iff₀ (two_zpow_pos e), Nat.cast_ofNat,
    zpow_add₀ (by norm_num), zpow_natCast]

theorem lastPlace_le {q : ℚ} {e : ℤ} (hq : 0 < q) (he : -1074 ≤ e) (h : q / 2 ^ e < 2 ^ 53) :
    lastPlace q ≤ e := by
  have hlog := (log_lt_iff hq 53 e).mpr h
  unfold lastPlace
  omega

/-- A last place below a place that is not the least one: the rational has less than `2 ^ 52` units
of the higher place. -/
theorem div_lt_of_lastPlace_lt {q : ℚ} {e : ℤ} (hq : 0 < q) (h : lastPlace q < e) :
    e ≠ -1074 ∧ q / 2 ^ e < 2 ^ 52 := by
  unfold lastPlace at h
  exact ⟨by omega, (log_lt_iff hq 52 e).mp (by omega)⟩

theorem lastPlace_eq_pred {q : ℚ} {e : ℤ} (hq : 0 < q) (hlt : lastPlace q < e)
    (h : 2 ^ 51 ≤ q / 2 ^ e) : lastPlace q = e - 1 := by
  have hlog := mt (log_lt_iff hq 51 e).mp (not_lt.mpr h)
  unfold lastPlace at hlt ⊢
  omega

/-- A rational within the relative distance `2 ^ -54` of a number rounds to it. -/
theorem nearestParts_of_close {q : ℚ} {m : ℕ} {e : ℤ} (hf : InFormat m e)
    (hclose : |q - m * 2 ^ e| * 2 ^ 54 < m * 2 ^ e) :
    nearestParts q = .finite .positive m e hf.pos := by
  have hpos := two_zpow_pos e
  have hm0 : (0 : ℚ) < m := by exact_mod_cast hf.pos
  have hm : (m : ℚ) + 1 ≤ 2 ^ 53 := by exact_mod_cast hf.lt
  have hhalf : (m : ℚ) / 2 ^ 54 < 1 / 2 := by
    rw [div_lt_iff₀ (by norm_num)]
    linarith
  -- the distance in units of the last place of the number
  obtain ⟨hlow, hhigh⟩ := abs_lt.mp ((lt_div_iff₀ (by norm_num)).mpr hclose)
  have hlow : m - m / 2 ^ 54 < q / 2 ^ e := by
    rw [lt_div_iff₀ hpos]
    linarith
  have hhigh : q / 2 ^ e < m + m / 2 ^ 54 := by
    rw [div_lt_iff₀ hpos]
    linarith
  have hquot : 0 < q / 2 ^ e := by
    have : (m : ℚ) / 2 ^ 54 < m := div_lt_self hm0 (by norm_num)
    linarith
  have hq : 0 < q := by
    have := mul_pos hquot hpos
    rwa [div_mul_cancel₀ q hpos.ne'] at this
  rcases (lastPlace_le hq hf.le_exponent (by linarith)).lt_or_eq with hlt | heq
  · -- only just below a power of two the rational has a finer last place than the number
    obtain ⟨hexp, hq52⟩ := div_lt_of_lastPlace_lt hq hlt
    have hm52 : m = 2 ^ 52 := by
      have hge := hf.normal.resolve_right hexp
      have hlt : (m : ℚ) < 2 ^ 52 + 1 := by linarith
      have hlt : m < 2 ^ 52 + 1 := by exact_mod_cast hlt
      omega
    have hquarter : (2 : ℚ) ^ 52 - 1 / 4 < q / 2 ^ e := by
      rw [hm52] at hlow
      push_cast at hlow
      linarith
    have hlast : lastPlace q = e - 1 := lastPlace_eq_pred hq hlt (by linarith)
    have hdouble : q / 2 ^ (e - 1) = 2 * (q / 2 ^ e) := by
      rw [zpow_sub_one₀ (by norm_num)]
      field_simp
    have hround : roundEven (q / 2 ^ (e - 1)) = 2 ^ 53 := by
      rw [hdouble]
      apply roundEven_eq (by linarith)
      · push_cast
        linarith
      · push_cast
        linarith
    rw [nearestParts_carry hlast hround]
    congr 1
    · exact hm52.symm
    · omega
  · apply nearestParts_eq heq _ hf.pos hf.lt
    apply roundEven_eq hquot.le <;> linarith

theorem nearestParts_of_inFormat {m : ℕ} {e : ℤ} (hf : InFormat m e) :
    nearestParts (m * 2 ^ e) = .finite .positive m e hf.pos := by
  apply nearestParts_of_close hf
  have := mul_zpow_pos hf.pos e
  simpa using this

theorem roundEven_le_iff {q : ℚ} {n : ℕ} (hq : 0 ≤ q) (hodd : n % 2 = 1) :
    roundEven q ≤ n ↔ q < n + 1 / 2 := by
  have hle := Nat.floor_le hq
  have hlt := Nat.lt_floor_add_one q
  unfold roundEven
  split_ifs with hbelow htie
  · constructor
    · intro h
      have : (⌊q⌋₊ : ℚ) ≤ n := by exact_mod_cast h
      linarith
    · intro h
      have : (⌊q⌋₊ : ℚ) < n + 1 := by linarith
      exact Nat.lt_succ_iff.mp (by exact_mod_cast this)
  · have hiff : ⌊q⌋₊ + ⌊q⌋₊ % 2 ≤ n ↔ ⌊q⌋₊ < n := by omega
    rw [hiff, ← Nat.cast_lt (α := ℚ)]
    constructor <;> intro h <;> linarith
  · rw [Nat.add_one_le_iff]
    constructor
    · intro h
      have : (⌊q⌋₊ : ℚ) + 1 ≤ n := by exact_mod_cast h
      linarith
    · intro h
      have : (⌊q⌋₊ : ℚ) < n := by
        have := lt_of_le_of_ne (not_lt.mp hbelow) (Ne.symm htie)
        linarith
      exact_mod_cast this

theorem lastPlace_of_large {q : ℚ} (hq : 2 ^ 52 ≤ q) :
    0 ≤ lastPlace q ∧ 2 ^ 52 * 2 ^ lastPlace q ≤ q := by
  have hpos : 0 < q := lt_of_lt_of_le (by norm_num) hq
  have hlog : 52 ≤ Int.log 2 q := by
    rw [← Int.zpow_le_iff_le_log (by norm_num) hpos]
    exact_mod_cast hq
  have hplace : lastPlace q = Int.log 2 q - 52 := by
    unfold lastPlace
    omega
  refine ⟨by omega, ?_⟩
  have hself := Int.zpow_log_le_self (b := 2) (by norm_num) hpos
  calc (2 : ℚ) ^ 52 * 2 ^ lastPlace q = 2 ^ (Int.log 2 q) := by
        rw [hplace, ← zpow_natCast, ← zpow_add₀ (by norm_num)]
        norm_num
    _ ≤ q := by exact_mod_cast hself

theorem lt_overflow_iff {q : ℚ} (hq : 2 ^ 52 ≤ q) :
    q < 2 ^ 1024 - 2 ^ 970 ↔
      (lastPlace q < 971 ∨ lastPlace q = 971 ∧ roundEven (q / 2 ^ lastPlace q) < 2 ^ 53) := by
  obtain ⟨-, hlow⟩ := lastPlace_of_large hq
  have hhigh := lt_two_zpow_lastPlace (q := q)
  have hpos : 0 < q := lt_of_lt_of_le (by norm_num) hq
  -- all bounds in units of half of the last place
  have hunit : (0 : ℚ) < 2 ^ 970 := by positivity
  have htop : (2 : ℚ) ^ 1024 = 2 ^ 54 * 2 ^ 970 := by rw [← pow_add]
  have h970 : (2 : ℚ) ^ (970 : ℤ) = 2 ^ 970 := zpow_natCast 2 970
  have h971 : (2 : ℚ) ^ (971 : ℤ) = 2 * 2 ^ 970 := by
    rw [← h970, ← zpow_one_add₀ (by norm_num)]
    rfl
  have h972 : (2 : ℚ) ^ (972 : ℤ) = 2 * (2 * 2 ^ 970) := by
    rw [← h971, ← zpow_one_add₀ (by norm_num)]
    rfl
  rw [htop]
  generalize (2 : ℚ) ^ 970 = unit at hunit h970 h971 h972 ⊢
  rcases lt_trichotomy (lastPlace q) 971 with hlt | heq | hgt
  · have hpow : (2 : ℚ) ^ lastPlace q ≤ 2 ^ (970 : ℤ) :=
      zpow_le_zpow_right₀ (by norm_num) (by omega)
    rw [h970] at hpow
    refine ⟨fun _ => .inl hlt, fun _ => ?_⟩
    linarith only [hhigh, hpow, hunit]
  · have hodd : (2 ^ 53 - 1) % 2 = 1 := by norm_num
    have hround := roundEven_le_iff (q := q / 2 ^ lastPlace q) (by positivity) hodd
    rw [Nat.le_sub_one_iff_lt (by norm_num), div_lt_iff₀ (two_zpow_pos _),
      Nat.cast_sub (by norm_num)] at hround
    rw [hround, heq, h971, Nat.cast_pow, Nat.cast_ofNat, Nat.cast_one]
    constructor
    · intro h
      exact .inr ⟨rfl, by linarith only [h]⟩
    · rintro (h | ⟨-, h⟩)
      · exact absurd h (lt_irrefl _)
      · linarith only [h]
  · have hpow : (2 : ℚ) ^ (972 : ℤ) ≤ 2 ^ lastPlace q :=
      zpow_le_zpow_right₀ (by norm_num) (by omega)
    rw [h972] at hpow
    constructor
    · intro h
      linarith only [h, hlow, hpow, hunit]
    · omega

/-- The parts of a rounded rational from `2 ^ 52` on: a full mantissa, and an exponent that fits the
format exactly below `2 ^ 1024 - 2 ^ 970`. -/
theorem nearestParts_of_large {q : ℚ} (hq : 2 ^ 52 ≤ q) :
    ∃ m e h, nearestParts q = .finite .positive m e h ∧ 2 ^ 52 ≤ m ∧ m < 2 ^ 53 ∧
      lastPlace q ≤ e ∧ (e ≤ 971 ↔ q < 2 ^ 1024 - 2 ^ 970) := by
  obtain ⟨-, hlow⟩ := lastPlace_of_large hq
  have hpos : 0 < q := lt_of_lt_of_le (by norm_num) hq
  have hround : 2 ^ 52 ≤ roundEven (q / 2 ^ lastPlace q) := by
    have hfloor : 2 ^ 52 ≤ ⌊q / 2 ^ lastPlace q⌋₊ := by
      rw [Nat.le_floor_iff (by positivity), le_div_iff₀ (two_zpow_pos _)]
      exact_mod_cast hlow
    unfold roundEven
    split_ifs <;> omega
  rw [lt_overflow_iff hq]
  by_cases hcarry : roundEven (q / 2 ^ lastPlace q) < 2 ^ 53
  · exact ⟨_, _, by omega, nearestParts_eq rfl rfl (by omega) hcarry, hround, hcarry, le_rfl,
      by omega⟩
  · have heq := le_antisymm (roundEven_lastPlace_le hpos) (not_lt.mp hcarry)
    exact ⟨_, _, by omega, nearestParts_carry rfl heq, le_rfl, by norm_num, by omega, by omega⟩

end OpenQasm.Number

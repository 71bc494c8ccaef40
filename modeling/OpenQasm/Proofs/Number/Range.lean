import OpenQasm.Proofs.Number.Shortest

/-!
# Natural numbers over the whole range

From `2 ^ 53` on a natural number is rounded, and from `2 ^ 1024 - 2 ^ 970` on it is infinite: half
of the last place above the greatest number, where the tie goes up. What is finite keeps a natural
value, and a sum of two numbers of natural value is the number next to the exact sum. So a sum is
finite whenever the sum of numbers no smaller is.
-/
namespace OpenQasm.Number

open Float.Model Float.Model.UnpackedFloat

/-- The least natural number that is rounded to infinity. -/
def overflow : ℕ :=
  2 ^ 1024 - 2 ^ 970

theorem cast_overflow : (overflow : ℚ) = 2 ^ 1024 - 2 ^ 970 := by
  have hle : 2 ^ 970 ≤ 2 ^ 1024 := by gcongr <;> norm_num
  rw [overflow, Nat.cast_sub hle, Nat.cast_pow, Nat.cast_pow, Nat.cast_ofNat]

theorem lt_overflow_of_exact {n : ℕ} (h : n < 2 ^ 53) : n < overflow := by
  have hle : 2 ^ 53 ≤ overflow := by decide +kernel
  omega

/-- A natural number from `2 ^ 53` on is rounded to one from there on, or to infinity. -/
theorem ofNat_of_large {n : ℕ} (h : 2 ^ 53 ≤ n) :
    (n < overflow ∧ (Float.ofNat n).isFinite = true ∧
        ∃ k : ℕ, 2 ^ 53 ≤ k ∧ value (Float.ofNat n) = k) ∨
      overflow ≤ n ∧ Float.ofNat n = infinity := by
  have hpos : 0 < n := lt_of_lt_of_le (by norm_num) h
  have hq : (2 : ℚ) ^ 53 ≤ n := by exact_mod_cast h
  have hlarge : (2 : ℚ) ^ 52 ≤ n := le_trans (by norm_num) hq
  have hplace := (lastPlace_of_large hlarge).1
  obtain ⟨m, e, hm, hparts, hlow, hhigh, he, hfits⟩ := nearestParts_of_large hlarge
  rw [← cast_overflow, Nat.cast_lt] at hfits
  rw [ofNat_eq_nearest hpos]
  rcases lt_or_ge n overflow with hlt | hge
  · left
    have hu := nearest_unpack hparts ⟨hm, hhigh, by omega, hfits.mpr hlt, .inl hlow⟩
    have hfin : (nearest n).isFinite = true := isFinite_iff.mpr (.inr ⟨_, m, e, hm, hu⟩)
    have hval : value (nearest n) = (m * 2 ^ e.toNat : ℕ) := by
      rw [value_of_finite hu, Sign.apply]
      push_cast
      rw [← zpow_natCast, Int.toNat_of_nonneg (hplace.trans he)]
    have hbound := le_value_nearest hq hfin
    rw [hval] at hbound
    exact ⟨hlt, hfin, _, by exact_mod_cast hbound, hval⟩
  · right
    refine ⟨hge, ?_⟩
    have hexp : 972 ≤ e := by
      have := mt hfits.mp hge.not_gt
      omega
    have hinf : infinity = .ofModel (Float.Model.pack (.infinity .positive)) := by decide
    rw [hinf, nearest, hparts, pack_of_high hm hexp]

theorem isFinite_ofNat_iff {n : ℕ} : (Float.ofNat n).isFinite = true ↔ n < overflow := by
  rcases lt_or_ge n (2 ^ 53) with hlt | hge
  · exact ⟨fun _ => lt_overflow_of_exact hlt, fun _ => isFinite_ofNat hlt⟩
  · rcases ofNat_of_large hge with ⟨hlt, hfin, -⟩ | ⟨hge, hinf⟩
    · exact ⟨fun _ => hlt, fun _ => hfin⟩
    · rw [hinf]
      refine ⟨fun h => absurd h (by decide), fun h => absurd h hge.not_gt⟩

theorem isNatural_ofNat_of_lt {n : ℕ} (h : n < overflow) : isNatural (Float.ofNat n) = true := by
  rcases lt_or_ge n (2 ^ 53) with hlt | hge
  · exact isNatural_ofNat hlt
  · rcases ofNat_of_large hge with ⟨-, hfin, k, -, hval⟩ | ⟨hge, -⟩
    · exact isNatural_iff.mpr ⟨hfin, k, hval⟩
    · exact absurd h hge.not_gt

theorem ofNat_eq_infinity {n : ℕ} (h : overflow ≤ n) : Float.ofNat n = infinity := by
  have hge : 2 ^ 53 ≤ n := by
    by_contra hlt
    exact absurd h (lt_overflow_of_exact (by omega)).not_ge
  rcases ofNat_of_large hge with ⟨hlt, -⟩ | ⟨-, hinf⟩
  · exact absurd h hlt.not_ge
  · exact hinf

theorem le_infinity {x : Float} (hx : x.isFinite = true) : x ≤ infinity := by
  have hinf : infinity.toModel.unpack = .infinity .positive := by rfl
  change (decide (x.toModel.unpack.le infinity.toModel.unpack = true)) = true
  rw [decide_eq_true_iff, UnpackedFloat.le, hinf]
  rcases isFinite_iff.mp hx with ⟨s, hu⟩ | ⟨s, m, e, h, hu⟩ <;> rw [hu] <;> cases s <;> rfl

theorem beq_infinity {x : Float} (hx : x.isFinite = true) : (x == infinity) = false := by
  have hinf : infinity.toModel.unpack = .infinity .positive := by rfl
  change x.toModel.unpack.beq infinity.toModel.unpack = false
  rw [UnpackedFloat.beq, hinf]
  rcases isFinite_iff.mp hx with ⟨s, hu⟩ | ⟨s, m, e, h, hu⟩ <;> rw [hu] <;> cases s <;> rfl

theorem eq_ofNat_of_value {x : Float} {n : ℕ} (hx : x.isFinite = true) (h : value x = n)
    (hpos : 0 < n) : x = Float.ofNat n := by
  have hvalue : 0 < value x := by
    rw [h]
    exact_mod_cast hpos
  rw [ofNat_eq_nearest hpos, nearest_of_close hx hvalue]
  simpa [h] using hpos

theorem add_eq_ofNat {x y : Float} {m n : ℕ} (hx : x.isFinite = true) (hxval : value x = m)
    (hy : y.isFinite = true) (hyval : value y = n) (hpos : 0 < m + n) :
    x + y = Float.ofNat (m + n) := by
  change Float.ofModel (Float.Model.pack
    (UnpackedFloat.add .binary64 x.toModel.unpack y.toModel.unpack)) = _
  rcases Nat.eq_zero_or_pos m with rfl | hm
  · have hn : 0 < n := by omega
    obtain ⟨m₂, e₂, h₂, hu₂, -⟩ := unpack_of_value_pos hy (by rw [hyval]; exact_mod_cast hn)
    obtain ⟨s, hu⟩ : ∃ s, x.toModel.unpack = .zero s := by
      rcases eq_zero_of_value hx (by exact_mod_cast hxval) with rfl | rfl
      · exact ⟨.positive, rfl⟩
      · exact ⟨.negative, rfl⟩
    rw [hu, hu₂]
    change Float.ofModel (Float.Model.pack (.finite .positive m₂ e₂ h₂)) = _
    rw [← hu₂, pack_unpack, Nat.zero_add]
    exact eq_ofNat_of_value hy hyval hn
  · obtain ⟨m₁, e₁, h₁, hu₁, hval₁⟩ := unpack_of_value_pos hx (by rw [hxval]; exact_mod_cast hm)
    rcases Nat.eq_zero_or_pos n with rfl | hn
    · obtain ⟨s, hu⟩ : ∃ s, y.toModel.unpack = .zero s := by
        rcases eq_zero_of_value hy (by exact_mod_cast hyval) with rfl | rfl
        · exact ⟨.positive, rfl⟩
        · exact ⟨.negative, rfl⟩
      rw [hu, hu₁]
      change Float.ofModel (Float.Model.pack (.finite .positive m₁ e₁ h₁)) = _
      rw [← hu₁, pack_unpack, Nat.add_zero]
      exact eq_ofNat_of_value hx hxval hm
    · obtain ⟨m₂, e₂, h₂, hu₂, hval₂⟩ :=
        unpack_of_value_pos hy (by rw [hyval]; exact_mod_cast hn)
      rw [hu₁, hu₂, add_eq h₁ h₂, ← hval₁, ← hval₂, hxval, hyval, ofNat_eq_nearest hpos,
        Nat.cast_add]
      rfl

theorem add_of_zeros {x y : Float} (hx : x.isFinite = true) (hxval : value x = 0)
    (hy : y.isFinite = true) (hyval : value y = 0) :
    (x + y).isFinite = true ∧ value (x + y) = 0 := by
  obtain ⟨s, hu⟩ : ∃ s, (x + y).toModel.unpack = .zero s := by
    rcases eq_zero_of_value hx hxval with rfl | rfl <;>
      rcases eq_zero_of_value hy hyval with rfl | rfl <;> exact ⟨_, rfl⟩
  exact ⟨isFinite_iff.mpr (.inl ⟨s, hu⟩), value_of_zero hu⟩

/-- A number that is not rounded is compared with any other as the natural numbers are. -/
theorem ofNat_le_ofNat_of_exact {m : ℕ} (hm : m < 2 ^ 53) (n : ℕ) :
    Float.ofNat m ≤ Float.ofNat n ↔ m ≤ n := by
  rcases lt_or_ge n (2 ^ 53) with hlt | hge
  · exact ofNat_le_ofNat hm hlt
  · have hle : m ≤ n := by omega
    refine iff_of_true ?_ hle
    rcases ofNat_of_large hge with ⟨-, hfin, k, hk, hval⟩ | ⟨-, hinf⟩
    · rw [le_iff_value (isFinite_ofNat hm) hfin, value_ofNat hm, hval]
      exact_mod_cast hm.le.trans hk
    · rw [hinf]
      exact le_infinity (isFinite_ofNat hm)

/-- What is not above a finite number is a natural number below it. -/
theorem ofNat_lt_of_not_ge {n : ℕ} {x : Float} (hx : x.isFinite = true)
    (h : ¬ Float.ofNat n ≥ x) : isNatural (Float.ofNat n) = true ∧ Float.ofNat n < x := by
  have hlt : n < overflow := by
    by_contra hge
    rw [ofNat_eq_infinity (not_lt.mp hge)] at h
    exact h (le_infinity hx)
  have hnatural := isNatural_ofNat_of_lt hlt
  have hfin := (isNatural_iff.mp hnatural).1
  refine ⟨hnatural, ?_⟩
  rwa [ge_iff_le, le_iff_value hx hfin, not_le, ← lt_iff_value hfin hx] at h

theorem infinity_add {x : Float} (hx : x.isFinite = true ∨ x = infinity) :
    infinity + x = infinity := by
  rcases hx with hfin | rfl
  · change Float.ofModel (Float.Model.pack
      (UnpackedFloat.add .binary64 infinity.toModel.unpack x.toModel.unpack)) = infinity
    have hinf : infinity.toModel.unpack = .infinity .positive := by rfl
    rcases isFinite_iff.mp hfin with ⟨s, hu⟩ | ⟨s, m, e, h, hu⟩ <;> rw [hinf, hu] <;> rfl
  · rfl

theorem add_infinity {x : Float} (hx : x.isFinite = true ∨ x = infinity) :
    x + infinity = infinity := by
  rcases hx with hfin | rfl
  · change Float.ofModel (Float.Model.pack
      (UnpackedFloat.add .binary64 x.toModel.unpack infinity.toModel.unpack)) = infinity
    have hinf : infinity.toModel.unpack = .infinity .positive := by rfl
    rcases isFinite_iff.mp hfin with ⟨s, hu⟩ | ⟨s, m, e, h, hu⟩ <;> rw [hinf, hu] <;> rfl
  · rfl

/-- A natural number, or one that was too large. -/
def IsCount (x : Float) : Prop :=
  isNatural x = true ∨ x = infinity

theorem isCount_ofNat (n : ℕ) : IsCount (Float.ofNat n) := by
  rcases lt_or_ge n overflow with hlt | hge
  · exact .inl (isNatural_ofNat_of_lt hlt)
  · exact .inr (ofNat_eq_infinity hge)

theorem not_isNatural_infinity : isNatural infinity = false := by
  rfl

namespace IsCount

variable {x y : Float}

theorem isFinite_or (hx : IsCount x) : x.isFinite = true ∨ x = infinity :=
  hx.imp_left (fun h => (isNatural_iff.mp h).1)

theorem isNatural_iff_isFinite (hx : IsCount x) : isNatural x = true ↔ x.isFinite = true := by
  rcases hx with hnat | rfl
  · exact iff_of_true hnat (isNatural_iff.mp hnat).1
  · decide

theorem add (hx : IsCount x) (hy : IsCount y) : IsCount (x + y) := by
  rcases id hx with hnat | rfl
  · rcases hy with hnat' | rfl
    · obtain ⟨hxfin, m, hxval⟩ := isNatural_iff.mp hnat
      obtain ⟨hyfin, n, hyval⟩ := isNatural_iff.mp hnat'
      rcases Nat.eq_zero_or_pos (m + n) with hzero | hpos
      · obtain ⟨rfl, rfl⟩ : m = 0 ∧ n = 0 := by omega
        rw [Nat.cast_zero] at hxval hyval
        obtain ⟨hfin, hval⟩ := add_of_zeros hxfin hxval hyfin hyval
        exact .inl (isNatural_iff.mpr ⟨hfin, 0, by rw [hval, Nat.cast_zero]⟩)
      · rw [add_eq_ofNat hxfin hxval hyfin hyval hpos]
        exact isCount_ofNat _
    · exact .inr (add_infinity hx.isFinite_or)
  · exact .inr (infinity_add hy.isFinite_or)

/-- What goes into a sum that is not too large is not too large either. -/
theorem isNatural_of_add (hx : IsCount x) (hy : IsCount y) (h : isNatural (x + y) = true) :
    isNatural x = true ∧ isNatural y = true := by
  rcases id hx with hnat | rfl
  · rcases hy with hnat' | rfl
    · exact ⟨hnat, hnat'⟩
    · rw [add_infinity hx.isFinite_or, not_isNatural_infinity] at h
      cases h
  · rw [infinity_add hy.isFinite_or, not_isNatural_infinity] at h
    cases h

theorem isNatural_add_ofNat {n : ℕ} (hx : IsCount x) (hy : IsCount y)
    (hinside : ¬ Float.ofNat n ≥ y) (h : isNatural (x + y) = true) :
    isNatural (x + Float.ofNat n) = true := by
  obtain ⟨hxnat, hynat⟩ := isNatural_of_add hx hy h
  obtain ⟨hxfin, l, hxval⟩ := isNatural_iff.mp hxnat
  obtain ⟨hyfin, k, hyval⟩ := isNatural_iff.mp hynat
  obtain ⟨hnat, hlt⟩ := ofNat_lt_of_not_ge hyfin hinside
  obtain ⟨hfin, m, hval⟩ := isNatural_iff.mp hnat
  rw [lt_iff_value hfin hyfin, hval, hyval, Nat.cast_lt] at hlt
  rw [(hx.add hy).isNatural_iff_isFinite,
    add_eq_ofNat hxfin hxval hyfin hyval (by omega), isFinite_ofNat_iff] at h
  rw [(hx.add (isCount_ofNat n)).isNatural_iff_isFinite]
  rcases Nat.eq_zero_or_pos (l + m) with hzero | hpos
  · obtain ⟨rfl, rfl⟩ : l = 0 ∧ m = 0 := by omega
    rw [Nat.cast_zero] at hxval hval
    exact (add_of_zeros hxfin hxval hfin hval).1
  · rw [add_eq_ofNat hxfin hxval hfin hval hpos, isFinite_ofNat_iff]
    omega

end IsCount

/-- What adding up positive lengths gives where their sum is `n`: the sum itself below `2 ^ 53`, and
some number from there on otherwise. -/
def Sums (x : Float) (n : ℕ) : Prop :=
  (n < 2 ^ 53 ∧ x = Float.ofNat n) ∨
    2 ^ 53 ≤ n ∧ ((x.isFinite = true ∧ ∃ k : ℕ, 2 ^ 53 ≤ k ∧ value x = k) ∨ x = infinity)

theorem sums_ofNat {n : ℕ} {k : ℕ} (h : 2 ^ 53 ≤ n ↔ 2 ^ 53 ≤ k) (hexact : n < 2 ^ 53 → n = k) :
    Sums (Float.ofNat k) n := by
  rcases lt_or_ge n (2 ^ 53) with hlt | hge
  · rw [← hexact hlt]
    exact .inl ⟨hlt, rfl⟩
  · refine .inr ⟨hge, ?_⟩
    rcases ofNat_of_large (h.mp hge) with ⟨-, hfin, hvalue⟩ | ⟨-, hinf⟩
    · exact .inl ⟨hfin, hvalue⟩
    · exact .inr hinf

theorem Sums.add {x y : Float} {m n : ℕ} (h : Sums x m) (hy : y.isFinite = true)
    (hvalue : value y = n) (hpos : 0 < n) : Sums (x + y) (m + n) := by
  rcases h with ⟨hm, rfl⟩ | ⟨hm, ⟨hfin, k, hk, hxk⟩ | rfl⟩
  · rw [add_eq_ofNat (isFinite_ofNat hm) (value_ofNat hm) hy hvalue (by omega)]
    exact sums_ofNat Iff.rfl (fun _ => rfl)
  · rw [add_eq_ofNat hfin hxk hy hvalue (by omega)]
    exact sums_ofNat (by omega) (by omega)
  · rw [infinity_add (.inl hy)]
    exact .inr ⟨by omega, .inr rfl⟩

/-- No length below `2 ^ 53` is mistaken for another sum. -/
theorem Sums.beq_iff {x : Float} {n k : ℕ} (h : Sums x n) (hk : k < 2 ^ 53) :
    (Float.ofNat k == x) = true ↔ k = n := by
  rcases h with ⟨hn, rfl⟩ | ⟨hn, hlarge⟩
  · exact ofNat_beq_ofNat hk hn
  · refine iff_of_false ?_ (by omega)
    rcases hlarge with ⟨hfin, m, hm, hvalue⟩ | rfl
    · rw [beq_iff_value (isFinite_ofNat hk) hfin, value_ofNat hk, hvalue, Nat.cast_inj]
      omega
    · rw [beq_infinity (isFinite_ofNat hk)]
      exact Bool.false_ne_true

end OpenQasm.Number

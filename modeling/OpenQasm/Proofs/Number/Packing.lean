import Mathlib
import OpenQasm.Number.Binary

/-!
# Sign, mantissa and exponent of a number

A number is stored in 64 bits and calculated with in parts: sign, mantissa and exponent. This
module proves that the two forms determine each other, and which parts occur. The mantissa of a
finite number other than zero has 53 bits, or fewer at the least exponent, so its parts are unique.
The parts that `Number.dyadic` reads off the bits are the same ones.
-/
namespace OpenQasm.Number

open Float.Model Float.Model.UnpackedFloat

/-- Mantissas and exponents of finite numbers other than zero. -/
structure InFormat (m : ℕ) (e : ℤ) : Prop where
  pos : 0 < m
  lt : m < 2 ^ 53
  le_exponent : -1074 ≤ e
  exponent_le : e ≤ 971
  normal : 2 ^ 52 ≤ m ∨ e = -1074

theorem toNat_unpackMantissa (b : BitVec 64) :
    (@unpackMantissa .binary64 b).toNat = b.toNat % 2 ^ 52 := by
  simp [unpackMantissa]

theorem toNat_unpackExponent (b : BitVec 64) :
    (@unpackExponent .binary64 b).toNat = b.toNat / 2 ^ 52 % 2 ^ 11 := by
  simp [unpackExponent, Nat.shiftRight_eq_div_pow]

theorem toNat_unpackSign (b : BitVec 64) :
    (@unpackSign .binary64 b).toNat = b.toNat / 2 ^ 63 := by
  have hb := b.isLt
  simp [unpackSign, Nat.shiftRight_eq_div_pow]
  omega

theorem toNat_packComponents (s : Sign) (e : BitVec 11) (m : BitVec 52) :
    (packComponents .binary64 s e m).toNat =
      s.toBitVec.toNat * 2 ^ 63 + e.toNat * 2 ^ 52 + m.toNat := by
  have he := e.isLt
  have hm := m.isLt
  unfold packComponents
  simp only [BitVec.toNat_append]
  rw [← Nat.shiftLeft_add_eq_or_of_lt he, ← Nat.shiftLeft_add_eq_or_of_lt hm]
  simp only [Nat.shiftLeft_eq]
  omega

theorem toNat_append_one (m : BitVec 52) : (1#1 ++ m).toNat = 2 ^ 52 + m.toNat := by
  rw [BitVec.toNat_append, ← Nat.shiftLeft_add_eq_or_of_lt m.isLt]
  simp [Nat.shiftLeft_eq]

theorem toBitVec_ofBitVec (v : BitVec 1) : (Sign.ofBitVec v).toBitVec = v := by
  revert v
  decide

theorem ofBitVec_toBitVec (s : Sign) : Sign.ofBitVec s.toBitVec = s := by
  cases s <;> rfl

theorem unpackSign_packComponents (s : Sign) (e : BitVec 11) (m : BitVec 52) :
    unpackSign (packComponents .binary64 s e m) = s.toBitVec := by
  apply BitVec.eq_of_toNat_eq
  have he := e.isLt
  have hm := m.isLt
  have hs := s.toBitVec.isLt
  rw [toNat_unpackSign, toNat_packComponents]
  omega

theorem packComponents_unpack (b : BitVec 64) :
    packComponents .binary64 (Sign.ofBitVec (@unpackSign .binary64 b))
      (@unpackExponent .binary64 b) (@unpackMantissa .binary64 b) = b := by
  apply BitVec.eq_of_toNat_eq
  have hb := b.isLt
  rw [toNat_packComponents, toBitVec_ofBitVec, toNat_unpackSign, toNat_unpackExponent,
    toNat_unpackMantissa]
  omega

theorem unpack_packComponents (s : Sign) (e : BitVec 11) (m : BitVec 52) (he : e.toNat < 2047) :
    UnpackedFloat.unpack .binary64 (packComponents .binary64 s e m) =
      if e.toNat = 0 then
        if h : 0 < m.toNat then .finite s m.toNat (-1074) h else .zero s
      else .finite s (2 ^ 52 + m.toNat) (e.toNat - 1075) (by omega) := by
  have hbias : (Format.exponentBias .binary64 : ℤ) = 1023 := rfl
  have hinf : e ≠ -1#11 := fun h => absurd (congrArg BitVec.toNat h) (Nat.ne_of_lt he)
  unfold UnpackedFloat.unpack
  simp only [unpackExponent_packComponents, unpackMantissa_packComponents,
    unpackSign_packComponents, ofBitVec_toBitVec, hinf, if_false, hbias, toNat_append_one]
  by_cases hexp : e = 0#11
  · by_cases hzero : m = 0#52
    · simp [hexp, hzero]
    · have hpos : 0 < m.toNat := Nat.pos_of_ne_zero (fun h => hzero (BitVec.eq_of_toNat_eq h))
      simp [hexp, hzero, hpos]
  · have hpos : e.toNat ≠ 0 := fun h => hexp (BitVec.eq_of_toNat_eq h)
    simp only [hexp, hpos, if_false]
    congr 1

theorem unpack_of_field {a : Float.Model} (h : a.toBits.toNat / 2 ^ 52 % 2 ^ 11 < 2047) :
    a.unpack =
      if a.toBits.toNat / 2 ^ 52 % 2 ^ 11 = 0 then
        if h : 0 < a.toBits.toNat % 2 ^ 52 then
          .finite (Sign.ofBitVec (@unpackSign .binary64 a.toBits.toBitVec))
            (a.toBits.toNat % 2 ^ 52) (-1074) h
        else .zero (Sign.ofBitVec (@unpackSign .binary64 a.toBits.toBitVec))
      else
        .finite (Sign.ofBitVec (@unpackSign .binary64 a.toBits.toBitVec))
          (2 ^ 52 + a.toBits.toNat % 2 ^ 52)
          ((a.toBits.toNat / 2 ^ 52 % 2 ^ 11 : ℕ) - 1075) (by omega) := by
  have hfields := unpack_packComponents
    (Sign.ofBitVec (@unpackSign .binary64 a.toBits.toBitVec))
    (@unpackExponent .binary64 a.toBits.toBitVec) (@unpackMantissa .binary64 a.toBits.toBitVec)
    (by rw [toNat_unpackExponent]; exact h)
  rw [packComponents_unpack] at hfields
  simp only [toNat_unpackExponent, toNat_unpackMantissa] at hfields
  exact hfields

theorem isFinite_iff_field (a : Float.Model) :
    a.unpack.isFinite = true ↔ a.toBits.toNat / 2 ^ 52 % 2 ^ 11 < 2047 := by
  constructor
  · intro hfin
    by_contra htop
    have hinf : @unpackExponent .binary64 a.toBits.toBitVec = -1#11 := by
      apply BitVec.eq_of_toNat_eq
      rw [toNat_unpackExponent]
      change a.toBits.toNat / 2 ^ 52 % 2 ^ 11 = 2047
      omega
    unfold Float.Model.unpack UnpackedFloat.unpack at hfin
    simp only [hinf, if_true] at hfin
    split at hfin <;> cases hfin
  · intro h
    rw [unpack_of_field h]
    split
    · split <;> rfl
    · rfl

theorem inFormat_of_unpack {a : Float.Model} {s : Sign} {m : ℕ} {e : ℤ} {h : 0 < m}
    (hu : a.unpack = .finite s m e h) : InFormat m e := by
  have hfield := (isFinite_iff_field a).mp (by rw [hu]; rfl)
  rw [unpack_of_field hfield] at hu
  split at hu
  · split at hu
    · cases hu
      exact ⟨h, by omega, le_rfl, by omega, .inr rfl⟩
    · cases hu
  · cases hu
    exact ⟨by omega, by omega, by omega, by omega, .inl (by omega)⟩

/-- Packing what was unpacked gives the number back. -/
theorem pack_unpack (a : Float.Model) : Float.Model.pack a.unpack = a := by
  obtain ⟨bits, valid⟩ := a
  have hb := packComponents_unpack bits.toBitVec
  have hm := (@unpackMantissa .binary64 bits.toBitVec).isLt
  have he := (@unpackExponent .binary64 bits.toBitVec).isLt
  simp only [Float.Model.pack, Float.Model.unpack, Float.Model.mk.injEq]
  rw [← UInt64.toBitVec_inj]
  change UnpackedFloat.pack .binary64 (UnpackedFloat.unpack .binary64 bits.toBitVec) =
    bits.toBitVec
  unfold UnpackedFloat.unpack
  dsimp only at hm he ⊢
  split
  next hinf =>
    split
    next hzero =>
      rw [hinf, hzero] at hb
      exact hb
    next hzero => exact (valid.eq_packedNaN hinf hzero).symm
  next hinf =>
    have htop : (@unpackExponent .binary64 bits.toBitVec).toNat ≠ 2047 :=
      fun h => hinf (BitVec.eq_of_toNat_eq h)
    split
    next hexp =>
      split
      next hzero =>
        rw [hexp, hzero] at hb
        exact hb
      next hzero =>
        have hlog : (@unpackMantissa .binary64 bits.toBitVec).toNat.log2 < 52 :=
          (Nat.log2_lt (fun h => hzero (BitVec.eq_of_toNat_eq h))).mpr hm
        rw [hexp] at hb ⊢
        unfold UnpackedFloat.pack
        rw [if_neg (by decide), if_neg (by simp only [Format.mantissaBits]; omega),
          BitVec.ofNat_toNat]
        simpa using hb
    next hexp =>
      have hlog : (1#1 ++ @unpackMantissa .binary64 bits.toBitVec).toNat.log2 = 52 := by
        rw [toNat_append_one]
        exact (Nat.log2_eq_iff (by omega)).mpr (by omega)
      have hfield : ((@unpackExponent .binary64 bits.toBitVec).toNat -
          ((Format.exponentBias .binary64 : ℤ) + (52 : ℕ)) + (Format.exponentBias .binary64 : ℤ) +
          (52 : ℕ)).toNat = (@unpackExponent .binary64 bits.toBitVec).toNat := by
        omega
      -- the low 52 bits of a mantissa are the stored ones
      have hlow : BitVec.ofNat 52 (1#1 ++ @unpackMantissa .binary64 bits.toBitVec).toNat =
          @unpackMantissa .binary64 bits.toBitVec := by
        apply BitVec.eq_of_toNat_eq
        rw [BitVec.toNat_ofNat, toNat_append_one]
        omega
      unfold UnpackedFloat.pack
      dsimp only
      rw [hfield, hlog, if_neg (by omega), if_pos (by rfl), BitVec.ofNat_toNat, hlow]
      simpa using hb

theorem unpack_pack_finite {s : Sign} {m : ℕ} {e : ℤ} (h : 0 < m) (hf : InFormat m e) :
    (Float.Model.pack (.finite s m e h)).unpack = .finite s m e h := by
  obtain ⟨-, hlt, hle, hmax, hnormal⟩ := hf
  have hbias : (Format.exponentBias .binary64 : ℤ) = 1023 := rfl
  have hwidth : (e + 1023 + (52 : ℕ)).toNat < 2047 := by omega
  unfold Float.Model.unpack Float.Model.pack UnpackedFloat.pack
  dsimp only
  rw [hbias, if_neg (by omega)]
  by_cases hn : 2 ^ 52 ≤ m
  · have hlog : m.log2 = 52 := (Nat.log2_eq_iff (by omega)).mpr ⟨hn, hlt⟩
    rw [if_pos (by rw [hlog]; rfl)]
    change UnpackedFloat.unpack .binary64 (packComponents .binary64 s _ _) = _
    rw [unpack_packComponents _ _ _ (by rw [BitVec.toNat_ofNat]; omega)]
    simp only [BitVec.toNat_ofNat]
    rw [if_neg (by omega)]
    congr 1 <;> omega
  · have hexp : e = -1074 := hnormal.resolve_left hn
    have hlog : m.log2 < 52 := (Nat.log2_lt (by omega)).mpr (by omega)
    have hmod : m % 2 ^ 52 = m := Nat.mod_eq_of_lt (by omega)
    rw [if_neg (by simp only [Format.mantissaBits]; omega)]
    change UnpackedFloat.unpack .binary64 (packComponents .binary64 s _ _) = _
    rw [unpack_packComponents _ _ _ (by decide), if_pos (by rfl)]
    simp only [BitVec.toNat_ofNat, hmod, h, dif_pos, hexp]

theorem eq_of_unpack {x y : Float} (h : x.toModel.unpack = y.toModel.unpack) : x = y := by
  obtain ⟨a⟩ := x
  obtain ⟨b⟩ := y
  have hab : a = b := by rw [← pack_unpack a, ← pack_unpack b]; exact congrArg _ h
  rw [hab]

/-- The parts that are read off the bits are those of the format. -/
theorem dyadic_of_unpack {x : Float} {s : Sign} {m : ℕ} {e : ℤ} {h : 0 < m}
    (hu : x.toModel.unpack = .finite s m e h) : dyadic x = ⟨s == .negative, m, e⟩ := by
  have hfield := (isFinite_iff_field x.toModel).mp (by rw [hu]; rfl)
  have hsign : decide (2 ^ 63 ≤ x.toModel.toBits.toNat) =
      (Sign.ofBitVec (@unpackSign .binary64 x.toModel.toBits.toBitVec) == .negative) := by
    have hb := x.toModel.toBits.toBitVec.isLt
    have hs := toNat_unpackSign x.toModel.toBits.toBitVec
    change _ = x.toModel.toBits.toNat / 2 ^ 63 at hs
    change x.toModel.toBits.toNat < 2 ^ 64 at hb
    by_cases hneg : 2 ^ 63 ≤ x.toModel.toBits.toNat
    · have hone : @unpackSign .binary64 x.toModel.toBits.toBitVec = 1#1 :=
        BitVec.eq_of_toNat_eq (by rw [hs]; change _ = 1; omega)
      rw [hone, decide_eq_true hneg]
      rfl
    · have hzero : @unpackSign .binary64 x.toModel.toBits.toBitVec = 0#1 :=
        BitVec.eq_of_toNat_eq (by rw [hs]; change _ = 0; omega)
      rw [hzero, decide_eq_false hneg]
      rfl
  rw [unpack_of_field hfield] at hu
  unfold dyadic Float.toBits
  simp only [Nat.pow_eq]
  rw [hsign]
  split at hu
  next hzero =>
    split at hu
    · cases hu
      rw [if_pos hzero]
    · cases hu
  next hzero =>
    cases hu
    rw [if_neg hzero]

theorem dyadic_of_unpack_zero {x : Float} {s : Sign} (hu : x.toModel.unpack = .zero s) :
    (dyadic x).mantissa = 0 := by
  have hfield := (isFinite_iff_field x.toModel).mp (by rw [hu]; rfl)
  rw [unpack_of_field hfield] at hu
  unfold dyadic Float.toBits
  simp only [Nat.pow_eq]
  split at hu
  next hzero =>
    split at hu
    · cases hu
    next hm =>
      rw [if_pos hzero]
      change x.toModel.toBits.toNat % 2 ^ 52 = 0
      omega
  · cases hu

end OpenQasm.Number

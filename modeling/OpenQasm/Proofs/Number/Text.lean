import OpenQasm.Number.Reader
import OpenQasm.Proofs.Number.Shortest
import OpenQasm.Proofs.Text.Cutting

/-!
# The text of a number reads back

The text of a natural number below `2 ^ 53` consists of its decimal digits. The literal of a finite
number spells a decimal, in one of four layouts, of the same value as the shortest decimal; so
reading it gives the number again. A sign stands before the decimal and is a token of its own.
-/
namespace OpenQasm.Decimal

theorem isDigit_of_mem_digits {n : ℕ} {c : Char} (h : c ∈ digits n) : c.isDigit = true :=
  Nat.isDigit_of_mem_toDigits (by norm_num) (by norm_num) h

theorem ofDigits_digits (n : ℕ) : ofDigits (digits n) = n :=
  Nat.ofDigitChars_ten_toDigits

theorem digits_ne_nil (n : ℕ) : digits n ≠ [] :=
  Nat.toDigits_ne_nil

theorem ofDigits_append (ds es : List Char) :
    ofDigits (ds ++ es) = ofDigits ds * 10 ^ es.length + ofDigits es := by
  change Nat.ofDigitChars 10 (ds ++ es) 0 = _
  rw [Nat.ofDigitChars_append, Nat.ofDigitChars_eq_ofDigitChars_zero, mul_comm]
  rfl

theorem ofDigits_replicate_zero (k : ℕ) : ofDigits (List.replicate k '0') = 0 := by
  change Nat.ofDigitChars 10 _ 0 = 0
  rw [Nat.ofDigitChars_replicate_zero]
  simp

theorem digits_mul_pow {n : ℕ} (h : 0 < n) (k : ℕ) :
    digits (n * 10 ^ k) = digits n ++ List.replicate k '0' := by
  induction k with
  | zero => simp
  | succ k ih =>
      have hstep := Nat.toDigits_append_toDigits (b := 10) (n := n * 10 ^ k) (d := 0)
        (by norm_num) (by positivity) (by norm_num)
      have hzero : Nat.toDigits 10 0 = ['0'] := rfl
      rw [hzero] at hstep
      rw [List.replicate_succ', ← List.append_assoc, ← ih, digits, digits, hstep]
      congr 1
      ring

/-- A decimal is scanned part by part: digits, a fraction, an exponent. -/
theorem scan?_append (whole tail : List Char) {fraction rest : List Char} {exponent : ℤ}
    (hne : whole ≠ []) (hw : ∀ c ∈ whole, c.isDigit = true)
    (hstop : tail.takeWhile Char.isDigit = []) (hf : scanFraction tail = (fraction, rest))
    (he : scanExponent rest = (exponent, [])) :
    scan? (whole ++ tail) =
      some (⟨ofDigits (whole ++ fraction), exponent - fraction.length⟩, []) := by
  obtain ⟨htake, hdrop⟩ := Text.takeWhile_append_stop hw hstop
  have hempty : whole.isEmpty = false := by simpa using hne
  unfold scan?
  rw [htake, hdrop, hf]
  simp only [hempty, Bool.false_and, Bool.false_eq_true, if_false, he]

theorem scan?_digits {ds : List Char} (hne : ds ≠ []) (hd : ∀ c ∈ ds, c.isDigit = true) :
    scan? ds = some (⟨ofDigits ds, 0⟩, []) := by
  have h := scan?_append ds [] hne hd rfl rfl rfl
  simpa using h

theorem scanFraction_point (ds rest : List Char) (hd : ∀ c ∈ ds, c.isDigit = true)
    (hstop : rest.takeWhile Char.isDigit = []) :
    scanFraction ('.' :: (ds ++ rest)) = (ds, rest) := by
  obtain ⟨htake, hdrop⟩ := Text.takeWhile_append_stop hd hstop
  rw [scanFraction, htake, hdrop]

theorem scanExponent_signed {ds : List Char} (hne : ds ≠ []) (hd : ∀ c ∈ ds, c.isDigit = true)
    (negative : Bool) :
    scanExponent ('e' :: (if negative then '-' else '+') :: ds) =
      (if negative then -(ofDigits ds : ℤ) else ofDigits ds, []) := by
  have htake : ds.takeWhile Char.isDigit = ds := List.takeWhile_eq_self_iff.mpr hd
  have hdrop : ds.dropWhile Char.isDigit = [] := List.dropWhile_eq_nil_iff.mpr hd
  have hempty : ds.isEmpty = false := by simpa using hne
  cases negative <;> simp [scanExponent, htake, hdrop, hempty]

end OpenQasm.Decimal

namespace OpenQasm.Number

open Decimal Float.Model

theorem eq_dropZeros_append (ds : List Char) :
    ∃ k, ds = (ds.reverse.dropWhile (· == '0')).reverse ++ List.replicate k '0' := by
  have hsplit := List.takeWhile_append_dropWhile (p := (· == '0')) (l := ds.reverse)
  have hzeros : ∀ c ∈ ds.reverse.takeWhile (· == '0'), c = '0' := by
    intro c hc
    exact eq_of_beq (List.mem_takeWhile_imp (p := (· == '0')) hc)
  have hrep := List.eq_replicate_of_mem hzeros
  refine ⟨(ds.reverse.takeWhile (· == '0')).length, ?_⟩
  rw [hrep] at hsplit
  have := congrArg List.reverse hsplit
  simpa using this.symm

/-- What `significant` leaves out are zeros at the end, which the position of the point makes up
for. -/
theorem significant_eq (d : Decimal) :
    ∃ k, digits d.coefficient = (significant d).1 ++ List.replicate k '0' ∧
      (significant d).2 = (significant d).1.length + k + d.exponent := by
  obtain ⟨k, hk⟩ := eq_dropZeros_append (digits d.coefficient)
  refine ⟨k, hk, ?_⟩
  have hlength := congrArg List.length hk
  rw [List.length_append, List.length_replicate] at hlength
  unfold significant
  dsimp only
  omega

theorem significant_digits {d : Decimal} (h : 0 < d.coefficient) :
    (significant d).1 ≠ [] ∧ (∀ c ∈ (significant d).1, c.isDigit = true) ∧
      (ofDigits (significant d).1 : ℚ) * 10 ^ ((significant d).2 - (significant d).1.length) =
        d.value := by
  obtain ⟨k, hdigits, hpoint⟩ := significant_eq d
  have hvalue : d.coefficient = ofDigits (significant d).1 * 10 ^ k := by
    rw [← ofDigits_digits d.coefficient, hdigits, ofDigits_append, ofDigits_replicate_zero,
      List.length_replicate, add_zero]
  refine ⟨?_, ?_, ?_⟩
  · intro hnil
    rw [hnil] at hvalue
    simp [ofDigits] at hvalue
    omega
  · intro c hc
    apply isDigit_of_mem_digits (n := d.coefficient)
    rw [hdigits]
    exact List.mem_append_left _ hc
  · have hexp : (significant d).2 - (significant d).1.length = k + d.exponent := by omega
    rw [Decimal.value, hvalue, hexp, zpow_add₀ (by norm_num), zpow_natCast]
    push_cast
    ring

theorem any_mark_eq_false {cs : List Char} (h : ∀ c ∈ cs, c.isDigit = true) :
    cs.any (fun c => c == '.' || c == 'e') = false := by
  rw [List.any_eq_false]
  intro c hc hmark
  have hdigit := h c hc
  rw [Bool.or_eq_true, beq_iff_eq, beq_iff_eq] at hmark
  rcases hmark with rfl | rfl
  · exact absurd hdigit (by decide)
  · exact absurd hdigit (by decide)

theorem isDigit_of_mem_replicate {k : ℕ} {c : Char} (h : c ∈ List.replicate k '0') :
    c.isDigit = true := by
  rw [List.eq_of_mem_replicate h]
  decide

theorem scan?_point {whole fraction : List Char} (hne : whole ≠ [])
    (hwhole : ∀ c ∈ whole, c.isDigit = true) (hfraction : ∀ c ∈ fraction, c.isDigit = true) :
    scan? (whole ++ '.' :: fraction) =
      some (⟨ofDigits (whole ++ fraction), 0 - fraction.length⟩, []) := by
  have hpoint := scanFraction_point fraction [] hfraction rfl
  rw [List.append_nil] at hpoint
  exact scan?_append _ _ hne hwhole rfl hpoint rfl

theorem scan?_exponent {d : Char} {rest : List Char} (n : ℤ)
    (hd : ∀ c ∈ d :: rest, c.isDigit = true) :
    scan? ((match d :: rest with
        | [] => []
        | [d] => [d]
        | d :: rest => d :: '.' :: rest) ++
          'e' :: (if n < 0 then '-' else '+') :: digits n.natAbs) =
      some (⟨ofDigits (d :: rest), n - rest.length⟩, []) := by
  have hexp : scanExponent ('e' :: (if n < 0 then '-' else '+') :: digits n.natAbs) = (n, []) := by
    have h := scanExponent_signed (digits_ne_nil n.natAbs)
      (fun c => isDigit_of_mem_digits) (decide (n < 0))
    simp only [decide_eq_true_eq, ofDigits_digits] at h
    rw [h]
    split
    · rw [Int.ofNat_natAbs_of_nonpos (by omega), neg_neg]
    · rw [Int.natAbs_of_nonneg (by omega)]
  cases rest with
  | nil => exact scan?_append _ _ (by simp) hd rfl rfl hexp
  | cons d' rest =>
      have hrest : ∀ c ∈ d' :: rest, c.isDigit = true := fun c hc => hd c (.tail _ hc)
      have h := scan?_append [d] _ (by simp) (by simpa using hd d (.head _)) rfl
        (scanFraction_point _ _ hrest rfl) hexp
      simpa using h

/-- In every layout, digits with a point spell the same decimal; where the layout shows neither a
point nor an exponent, a point and a zero are added. -/
theorem scan?_render (l : Layout) {ds : List Char} (n : ℤ) (hne : ds ≠ [])
    (hd : ∀ c ∈ ds, c.isDigit = true) :
    ∃ d, scan? (if (l.render ds n).any (fun c => c == '.' || c == 'e') then l.render ds n
        else l.render ds n ++ ['.', '0']) = some (d, []) ∧
      d.value = ofDigits ds * 10 ^ (n - ds.length) := by
  have hlength : 0 < ds.length := List.length_pos_of_ne_nil hne
  unfold Layout.render
  dsimp only
  split
  next hwhole =>
    have hdigits : ∀ c ∈ ds ++ List.replicate (n - ds.length).toNat '0', c.isDigit = true :=
      List.forall_mem_append.mpr ⟨hd, fun c => isDigit_of_mem_replicate⟩
    rw [any_mark_eq_false hdigits]
    refine ⟨_, scan?_point (by simp [hne]) hdigits (by simp), ?_⟩
    have hzero : ofDigits ['0'] = 0 := rfl
    have hexp : n - ds.length = ((n - ds.length).toNat : ℤ) := by omega
    rw [Decimal.value, ofDigits_append, ofDigits_append, ofDigits_replicate_zero, hzero,
      List.length_replicate, hexp, zpow_natCast]
    simp [mul_assoc]
  next =>
    split
    next hinside =>
      have hmark : (ds.take n.toNat ++ '.' :: ds.drop n.toNat).any
          (fun c => c == '.' || c == 'e') = true := by simp
      rw [if_pos hmark]
      refine ⟨_, scan?_point (by simp [hne]; omega) (fun c hc => hd c (List.mem_of_mem_take hc))
        (fun c hc => hd c (List.mem_of_mem_drop hc)), ?_⟩
      rw [Decimal.value, List.take_append_drop, List.length_drop]
      congr 2
      dsimp only
      omega
    next =>
      split
      next hleading =>
        have hmark : ('0' :: '.' :: (List.replicate (-n).toNat '0' ++ ds)).any
            (fun c => c == '.' || c == 'e') = true := by simp
        have hdigits : ∀ c ∈ List.replicate (-n).toNat '0' ++ ds, c.isDigit = true :=
          List.forall_mem_append.mpr ⟨fun c => isDigit_of_mem_replicate, hd⟩
        rw [if_pos hmark]
        refine ⟨_, scan?_point (List.cons_ne_nil '0' []) (by simp) hdigits, ?_⟩
        have hzero : ofDigits ['0'] = 0 := rfl
        rw [Decimal.value, ofDigits_append, ofDigits_append, ofDigits_replicate_zero, hzero,
          List.length_append, List.length_replicate, zero_mul, zero_mul, zero_add, zero_add]
        congr 2
        dsimp only
        omega
      next =>
        obtain ⟨d, rest, rfl⟩ := List.exists_cons_of_ne_nil hne
        have hmark (mantissa : List Char) (c : Char) :
            (mantissa ++ 'e' :: c :: digits (n - 1).natAbs).any
              (fun c => c == '.' || c == 'e') = true := by simp
        rw [if_pos (hmark _ _)]
        refine ⟨_, scan?_exponent (n - 1) hd, ?_⟩
        rw [Decimal.value]
        congr 2
        simp only [List.length_cons]
        omega

theorem isInf_eq_false {x : Float} (hx : x.isFinite = true) : x.isInf = false := by
  change x.toModel.unpack.isInf = false
  rcases isFinite_iff.mp hx with ⟨s, hu⟩ | ⟨s, m, e, h, hu⟩ <;> rw [hu] <;> rfl

theorem abs_of_value_neg {x : Float} (hx : x.isFinite = true) (hneg : value x < 0) :
    x.abs.isFinite = true ∧ 0 < value x.abs ∧ -x.abs = x := by
  rcases isFinite_iff.mp hx with ⟨s, hu⟩ | ⟨s, m, e, h, hu⟩
  · rw [value_of_zero hu] at hneg
    exact absurd hneg (lt_irrefl 0)
  · have hf := inFormat_of_unpack hu
    have hmag := mul_zpow_pos h e
    have hs : s = .negative := by
      cases s with
      | negative => rfl
      | positive =>
          rw [value_of_finite hu] at hneg
          simp only [UnpackedFloat.Sign.apply] at hneg
          push_cast at hneg
          linarith
    subst hs
    have habs : x.abs.toModel.unpack = .finite .positive m e h := by
      change (Float.Model.pack x.toModel.unpack.abs).unpack = _
      rw [hu]
      exact unpack_pack_finite h hf
    refine ⟨isFinite_iff.mpr (.inr ⟨_, m, e, h, habs⟩), ?_, ?_⟩
    · rw [value_of_finite habs]
      simpa [UnpackedFloat.Sign.apply] using hmag
    · apply eq_of_unpack
      change (Float.Model.pack x.abs.toModel.unpack.neg).unpack = _
      rw [habs, hu]
      exact unpack_pack_finite h hf

theorem abs_of_value_pos {x : Float} (hx : x.isFinite = true) (hpos : 0 < value x) : x.abs = x := by
  obtain ⟨m, e, hm, hu, -⟩ := unpack_of_value_pos hx hpos
  change Float.ofModel (Float.Model.pack x.toModel.unpack.abs) = x
  rw [hu]
  change Float.ofModel (Float.Model.pack (.finite .positive m e hm)) = x
  rw [← hu, pack_unpack]

theorem not_lt_zero_of_value {x : Float} (hx : x.isFinite = true) (h : 0 ≤ value x) : ¬ x < 0 := by
  rw [lt_iff_value hx isFinite_zero, value_zero]
  exact h.not_gt

theorem beq_zero_of_value {x : Float} (hx : x.isFinite = true) (h : value x ≠ 0) :
    (x == 0) = false := by
  rw [← Bool.not_eq_true, beq_iff_value hx isFinite_zero, value_zero]
  exact h

theorem chars_of_value_pos {x : Float} (hx : x.isFinite = true) (hpos : 0 < value x) :
    chars x = magnitudeText x := by
  unfold chars
  rw [isNaN_eq_false hx, beq_zero_of_value hx hpos.ne', isInf_eq_false hx,
    abs_of_value_pos hx hpos]
  simp only [Bool.false_eq_true, if_false, not_lt_zero_of_value hx hpos.le]

theorem chars_of_value_neg {x : Float} (hx : x.isFinite = true) (hneg : value x < 0) :
    chars x = '-' :: magnitudeText x.abs := by
  have hlt : x < 0 := by
    rw [lt_iff_value hx isFinite_zero, value_zero]
    exact hneg
  unfold chars
  rw [isNaN_eq_false hx, beq_zero_of_value hx hneg.ne, isInf_eq_false hx]
  simp only [Bool.false_eq_true, if_false, hlt, if_true]

theorem isNegativeZero_iff {x : Float} : isNegativeZero x = true ↔ x = -0 := by
  unfold isNegativeZero
  rw [beq_iff_eq]
  constructor
  · obtain ⟨bits, valid⟩ := x
    intro h
    change bits = _ at h
    subst h
    rfl
  · rintro rfl
    decide

theorem isNegativeZero_of_value {x : Float} (h : value x ≠ 0) : isNegativeZero x = false := by
  rw [← Bool.not_eq_true, isNegativeZero_iff]
  rintro rfl
  exact h (value_of_zero (s := .negative) rfl)

theorem literal_toList {x : Float} (hx : x.isFinite = true) (h : isNegativeZero x = false) :
    (literal x).toList =
      if (chars x).any (fun c => c == '.' || c == 'e') then chars x else chars x ++ ['.', '0'] := by
  unfold literal text
  rw [h, hx]
  dsimp only
  cases (chars x).any (fun c => c == '.' || c == 'e') with
  | false =>
      change (String.ofList (chars x) ++ ".0").toList = _
      rw [String.toList_append, String.toList_ofList]
      rfl
  | true => exact String.toList_ofList

theorem scan?_literal {x : Float} (hx : x.isFinite = true) (hpos : 0 < value x) :
    ∃ d, scan? (literal x).toList = some (d, []) ∧ d.toFloat = x := by
  have hcoefficient := coefficient_shortest_pos hx hpos
  obtain ⟨hne, hd, hvalue⟩ := significant_digits hcoefficient
  obtain ⟨d, hscan, hd_value⟩ := scan?_render plain (significant (shortest x)).2 hne hd
  rw [hvalue] at hd_value
  refine ⟨d, ?_, ?_⟩
  · rw [literal_toList hx (isNegativeZero_of_value hpos.ne'), chars_of_value_pos hx hpos]
    exact hscan
  · have hd_pos : 0 < d.coefficient := by
      by_contra hzero
      have hshort := (shortest x).value_bounds hcoefficient
      rw [← hd_value, Decimal.value, Nat.eq_zero_of_not_pos hzero] at hshort
      have : (0 : ℚ) < 10 ^ (((digits (shortest x).coefficient).length : ℤ) +
        (shortest x).exponent - 1) := by positivity
      push_cast at hshort
      linarith [hshort.1]
    rw [toFloat_eq_nearest d hd_pos, hd_value, ← toFloat_eq_nearest _ hcoefficient,
      toFloat_shortest hx hpos]

theorem literal_of_value_neg {x : Float} (hx : x.isFinite = true) (hneg : value x < 0) :
    (literal x).toList = '-' :: (literal x.abs).toList := by
  obtain ⟨habs, hpos, -⟩ := abs_of_value_neg hx hneg
  rw [literal_toList hx (isNegativeZero_of_value hneg.ne), chars_of_value_neg hx hneg,
    literal_toList habs (isNegativeZero_of_value hpos.ne'), chars_of_value_pos habs hpos]
  rw [List.any_cons, show ('-' == '.' || '-' == 'e') = false from rfl, Bool.false_or]
  split <;> rfl

theorem chars_ofNat {n : ℕ} (h : n < 2 ^ 53) : chars (Float.ofNat n) = digits n := by
  rcases Nat.eq_zero_or_pos n with rfl | hpos
  · decide +kernel
  have hfin := isFinite_ofNat h
  have hval : 0 < value (Float.ofNat n) := by
    rw [value_ofNat h]
    exact_mod_cast hpos
  rw [chars_of_value_pos hfin hval]
  obtain ⟨c, k, hc, hn, hshort⟩ := shortest_ofNat hpos h
  obtain ⟨j, hdigits, hpoint⟩ := significant_eq ⟨c, k⟩
  dsimp only at hdigits hpoint
  have hn_digits : digits n = digits c ++ List.replicate k '0' := by rw [← hn, digits_mul_pow hc]
  have hlength : (digits n).length ≤ 16 :=
    (Nat.length_toDigits_le_iff (by norm_num) (by norm_num)).mpr (by omega)
  unfold magnitudeText
  rw [hshort]
  generalize significant ⟨c, k⟩ = sig at *
  obtain ⟨ds, point⟩ := sig
  dsimp only at hdigits hpoint ⊢
  rw [hn_digits, hdigits] at hlength ⊢
  simp only [List.length_append, List.length_replicate] at hlength
  unfold Layout.render plain
  rw [if_pos ⟨by omega, by dsimp only; omega⟩, List.append_assoc, ← List.replicate_add]
  congr 2
  omega

theorem chars_of_value {x : Float} {n : ℕ} (hx : x.isFinite = true) (hv : value x = n)
    (h : n < 2 ^ 53) : chars x = digits n := by
  rcases Nat.eq_zero_or_pos n with rfl | hpos
  · rcases eq_zero_of_value hx (by exact_mod_cast hv) with rfl | rfl
    · decide +kernel
    · decide +kernel
  · rw [eq_ofNat hx hv hpos h, chars_ofNat h]

theorem toFloat_natural (n : ℕ) : (⟨n, 0⟩ : Decimal).toFloat = Float.ofNat n := by
  rcases Nat.eq_zero_or_pos n with rfl | hpos
  · rfl
  · rw [toFloat_eq_nearest _ hpos, ofNat_eq_nearest hpos, Decimal.value]
    simp

theorem scanBase_digits {ds : List Char} (hd : ∀ c ∈ ds, c.isDigit = true) :
    scanBase ds = none := by
  unfold scanBase
  split
  next c rest =>
    have hc := hd c (.tail _ (.head _))
    have hne (m : Char) (hm : m.isDigit = false) : (c == m) = false := by
      rw [← Bool.not_eq_true, beq_iff_eq]
      rintro rfl
      rw [hm] at hc
      cases hc
    simp [hne 'x' rfl, hne 'X' rfl, hne 'o' rfl, hne 'O' rfl, hne 'b' rfl, hne 'B' rfl]
  next => rfl

theorem read_digits (n : ℕ) : read (digits n) = Float.ofNat n := by
  have hd : ∀ c ∈ digits n, c.isDigit = true := fun c hc => isDigit_of_mem_digits hc
  have hempty : (digits n).isEmpty = false := by simpa using digits_ne_nil n
  have hsign : scanSign (digits n) = (false, digits n) := by
    unfold scanSign
    split
    next heq => exact absurd (hd '-' (by rw [heq]; exact .head _)) (by decide)
    next heq => exact absurd (hd '+' (by rw [heq]; exact .head _)) (by decide)
    next => rfl
  have hdecimal : signedDecimal? (digits n) = some (false, ⟨n, 0⟩) := by
    unfold signedDecimal?
    rw [hsign]
    dsimp only
    rw [scan?_digits (digits_ne_nil n) hd, ofDigits_digits]
  unfold read
  rw [Text.trim_of_no_blanks (fun c hc => Text.isBlank_of_isDigit (hd c hc))]
  simp only [hempty, Bool.false_eq_true, if_false, scanBase_digits hd, hdecimal]
  exact toFloat_natural n

def isNumeral (c : Char) : Bool :=
  c.isDigit || ".+-eINafinty".toList.contains c

theorem isNumeral_of_isDigit {c : Char} (h : c.isDigit = true) : isNumeral c = true := by
  rw [isNumeral, h, Bool.true_or]

theorem isDigit_of_mem_significant {d : Decimal} {c : Char} (h : c ∈ (significant d).1) :
    c.isDigit = true := by
  apply isDigit_of_mem_digits (n := d.coefficient)
  exact List.mem_reverse.mp ((List.dropWhile_sublist _).subset (List.mem_reverse.mp h))

theorem isNumeral_of_mem_render (l : Layout) {ds : List Char} (n : ℤ)
    (hd : ∀ c ∈ ds, c.isDigit = true) : ∀ c ∈ l.render ds n, isNumeral c = true := by
  have hds : ∀ c ∈ ds, isNumeral c = true := fun c hc => isNumeral_of_isDigit (hd c hc)
  have hzeros (k : ℕ) : ∀ c ∈ List.replicate k '0', isNumeral c = true := fun c hc =>
    isNumeral_of_isDigit (isDigit_of_mem_replicate hc)
  have hexponent (k : ℕ) : ∀ c ∈ digits k, isNumeral c = true := fun c hc =>
    isNumeral_of_isDigit (isDigit_of_mem_digits hc)
  have hpoint : isNumeral '.' = true := by decide
  have hzero : isNumeral '0' = true := by decide
  have hmark : isNumeral 'e' = true := by decide
  have hsign : isNumeral (if n - 1 < 0 then '-' else '+') = true := by split <;> decide
  unfold Layout.render
  dsimp only
  split
  · exact List.forall_mem_append.mpr ⟨hds, hzeros _⟩
  · split
    · exact List.forall_mem_append.mpr ⟨fun c hc => hds c (List.mem_of_mem_take hc),
        List.forall_mem_cons.mpr ⟨hpoint, fun c hc => hds c (List.mem_of_mem_drop hc)⟩⟩
    · split
      · exact List.forall_mem_cons.mpr ⟨hzero, List.forall_mem_cons.mpr
          ⟨hpoint, List.forall_mem_append.mpr ⟨hzeros _, hds⟩⟩⟩
      · refine List.forall_mem_append.mpr ⟨?_, List.forall_mem_cons.mpr
          ⟨hmark, List.forall_mem_cons.mpr ⟨hsign, hexponent _⟩⟩⟩
        split
        · exact List.forall_mem_nil _
        · exact hds
        · obtain ⟨hfirst, hrest⟩ := List.forall_mem_cons.mp hds
          exact List.forall_mem_cons.mpr ⟨hfirst, List.forall_mem_cons.mpr ⟨hpoint, hrest⟩⟩

theorem isNumeral_of_mem_chars (x : Float) : ∀ c ∈ chars x, isNumeral c = true := by
  have hunsigned : ∀ c ∈ (if x.isInf then "Infinity".toList else magnitudeText x.abs),
      isNumeral c = true := by
    split
    · exact List.all_eq_true.mp rfl
    · exact isNumeral_of_mem_render _ _ (fun c => isDigit_of_mem_significant)
  unfold chars
  split
  · exact List.all_eq_true.mp rfl
  · split
    · exact List.all_eq_true.mp rfl
    · dsimp only
      split
      · exact List.forall_mem_cons.mpr ⟨by decide, hunsigned⟩
      · exact hunsigned

theorem isNumeral_of_mem_literal (x : Float) :
    ∀ c ∈ (literal x).toList, isNumeral c = true := by
  have hchars := isNumeral_of_mem_chars x
  unfold literal text
  split
  · exact List.all_eq_true.mp rfl
  · dsimp only
    split
    · rw [String.toList_append, String.toList_ofList]
      exact List.forall_mem_append.mpr ⟨hchars, List.all_eq_true.mp rfl⟩
    · rwa [String.toList_ofList]

/-- Characters of numbers: those of names, the point and the signs. -/
def isNumberChar (c : Char) : Bool :=
  Text.isNameChar c || c == '.' || c == '+' || c == '-'

theorem isNumberChar_of_isNumeral {c : Char} (h : isNumeral c = true) : isNumberChar c = true := by
  have hmarks : ".+-eINafinty".toList.all isNumberChar = true := rfl
  rw [isNumeral, Bool.or_eq_true, List.contains_iff_mem] at h
  rcases h with h | h
  · simp [isNumberChar, Text.isNameChar, h]
  · exact List.all_eq_true.mp hmarks c h

theorem isNumberChar_of_mem_chars (x : Float) : ∀ c ∈ chars x, isNumberChar c = true :=
  fun c hc => isNumberChar_of_isNumeral (isNumeral_of_mem_chars x c hc)

theorem isNumberChar_of_mem_literal (x : Float) :
    ∀ c ∈ (literal x).toList, isNumberChar c = true :=
  fun c hc => isNumberChar_of_isNumeral (isNumeral_of_mem_literal x c hc)

theorem literal_ne_nil {x : Float} (hx : x.isFinite = true) : (literal x).toList ≠ [] := by
  rcases lt_trichotomy (value x) 0 with hneg | hzero | hpos
  · rw [literal_of_value_neg hx hneg]
    exact List.cons_ne_nil _ _
  · rcases eq_zero_of_value hx hzero with rfl | rfl <;> decide +kernel
  · obtain ⟨d, hscan, -⟩ := scan?_literal hx hpos
    intro hnil
    rw [hnil] at hscan
    cases hscan

end OpenQasm.Number

import OpenQasm.Number.Decimal
import OpenQasm.Proofs.Text.Cutting

/-!
# What a decimal is read from

The characters that `Decimal.scan?` uses up have no blank among them, and they are read as the same
decimal before every text at which a decimal stops.
-/
namespace OpenQasm.Decimal

open OpenQasm.Text (isBlank)

/-- A text that no decimal before it goes on with. -/
def Stops (cs : List Char) : Prop :=
  ∀ c ∈ cs.head?, c.isDigit = false ∧ c ≠ '.' ∧ c ≠ 'e' ∧ c ≠ 'E'

/-- A written exponent: its mark, an optional sign and digits. -/
structure IsExponent (mark : Char) (sign ds : List Char) : Prop where
  mark : mark = 'e' ∨ mark = 'E'
  sign : sign = [] ∨ sign = ['-'] ∨ sign = ['+']
  ne_nil : ds ≠ []
  digits : ∀ c ∈ ds, c.isDigit = true

theorem scanExponent_mark {mark : Char} {sign ds rest : List Char} (h : IsExponent mark sign ds)
    (hstop : ∀ c ∈ rest.head?, c.isDigit = false) :
    scanExponent (mark :: (sign ++ (ds ++ rest))) =
      (if sign = ['-'] then -(ofDigits ds : ℤ) else ofDigits ds, rest) := by
  obtain ⟨htake, hdrop⟩ := Text.takeWhile_append_stop h.digits (Text.takeWhile_stop hstop)
  have hempty : ds.isEmpty = false := by simpa using h.ne_nil
  have hm : (mark == 'e' || mark == 'E') = true := by simpa using h.mark
  unfold scanExponent
  dsimp only
  rw [if_pos hm]
  rcases h.sign with rfl | rfl | rfl
  · obtain ⟨d, ds', rfl⟩ := List.exists_cons_of_ne_nil h.ne_nil
    have hd := h.digits d List.mem_cons_self
    split
    next heq =>
      cases heq
      cases hd
    next heq =>
      cases heq
      cases hd
    next =>
      rw [List.nil_append, htake, hdrop]
      rfl
  · simp [htake, hdrop, hempty]
  · simp [htake, hdrop, hempty]

theorem scanExponent_cases (cs : List Char) :
    scanExponent cs = (0, cs) ∨
      ∃ mark sign ds rest, IsExponent mark sign ds ∧ (∀ c ∈ rest.head?, c.isDigit = false) ∧
        cs = mark :: (sign ++ (ds ++ rest)) := by
  -- After the mark and a sign, the digits decide.
  have hdigits {mark : Char} (hmark : mark = 'e' ∨ mark = 'E') (sign tail : List Char)
      (hsign : sign = [] ∨ sign = ['-'] ∨ sign = ['+'])
      (hne : ¬(tail.takeWhile Char.isDigit).isEmpty = true) :
      ∃ mark' sign' ds rest, IsExponent mark' sign' ds ∧
        (∀ c ∈ rest.head?, c.isDigit = false) ∧
        mark :: (sign ++ tail) = mark' :: (sign' ++ (ds ++ rest)) := by
    refine ⟨mark, sign, tail.takeWhile Char.isDigit, tail.dropWhile Char.isDigit,
      ⟨hmark, hsign, by simpa using hne, fun c hc => List.mem_takeWhile_imp hc⟩,
      Text.stop_dropWhile Char.isDigit tail, ?_⟩
    rw [List.takeWhile_append_dropWhile]
  cases cs with
  | nil => exact .inl rfl
  | cons mark tail =>
      unfold scanExponent
      dsimp only
      by_cases hm : (mark == 'e' || mark == 'E') = true
      · have hmark : mark = 'e' ∨ mark = 'E' := by simpa using hm
        rw [if_pos hm]
        split
        · split
          next => exact .inl rfl
          next hne => exact .inr (hdigits hmark ['-'] _ (by simp) hne)
        · split
          next => exact .inl rfl
          next hne => exact .inr (hdigits hmark ['+'] _ (by simp) hne)
        · split
          next => exact .inl rfl
          next hne => exact .inr (hdigits hmark [] _ (by simp) hne)
      · rw [if_neg hm]
        exact .inl rfl

/-- What an exponent is read from has no blanks, and is read the same before any text at which a
decimal stops. -/
theorem scanExponent_extend {cs rest : List Char} {n : ℤ} (h : scanExponent cs = (n, rest)) :
    ∃ used, cs = used ++ rest ∧ (∀ c ∈ used, isBlank c = false) ∧
      (∀ c ∈ used.head?, c.isDigit = false ∧ c ≠ '.') ∧
      ∀ rest', Stops rest' → scanExponent (used ++ rest') = (n, rest') := by
  rcases scanExponent_cases cs with hnone | ⟨mark, sign, ds, tail, hexp, hstop, rfl⟩
  · rw [hnone] at h
    cases h
    refine ⟨[], rfl, by simp, by simp, ?_⟩
    intro rest' hrest'
    cases rest' with
    | nil => rfl
    | cons c rest' =>
        obtain ⟨-, -, he, hE⟩ := hrest' c rfl
        rw [List.nil_append]
        unfold scanExponent
        dsimp only
        rw [if_neg (by simp [he, hE])]
  · rw [scanExponent_mark hexp hstop] at h
    cases h
    refine ⟨mark :: (sign ++ ds), by simp, ?_, ?_, ?_⟩
    · have hmark : isBlank mark = false := by rcases hexp.mark with rfl | rfl <;> decide
      have hsign : ∀ c ∈ sign, isBlank c = false := by
        rcases hexp.sign with rfl | rfl | rfl <;> simp <;> decide
      intro c hc
      rcases List.mem_cons.mp hc with rfl | hc
      · exact hmark
      · rcases List.mem_append.mp hc with hc | hc
        · exact hsign c hc
        · exact Text.isBlank_of_isDigit (hexp.digits c hc)
    · intro c hc
      cases hc
      rcases hexp.mark with rfl | rfl <;> decide
    · intro rest' hrest'
      rw [List.cons_append, List.append_assoc]
      exact scanExponent_mark hexp (fun c hc => (hrest' c hc).1)

theorem scanFraction_extend {cs fraction rest : List Char}
    (h : scanFraction cs = (fraction, rest)) :
    ∃ used, cs = used ++ rest ∧ (∀ c ∈ used, isBlank c = false) ∧
      (∀ c ∈ used.head?, c.isDigit = false) ∧
      ∀ rest', (∀ c ∈ rest'.head?, c.isDigit = false ∧ c ≠ '.') →
        scanFraction (used ++ rest') = (fraction, rest') := by
  unfold scanFraction at h
  split at h
  next tail =>
    cases h
    have hds : ∀ c ∈ tail.takeWhile Char.isDigit, c.isDigit = true :=
      fun c hc => List.mem_takeWhile_imp hc
    refine ⟨'.' :: tail.takeWhile Char.isDigit, by simp, ?_, ?_, ?_⟩
    · intro c hc
      rcases List.mem_cons.mp hc with rfl | hc
      · decide
      · exact Text.isBlank_of_isDigit (hds c hc)
    · intro c hc
      cases hc
      decide
    · intro rest' hrest'
      obtain ⟨htake, hdrop⟩ :=
        Text.takeWhile_append_stop hds (Text.takeWhile_stop fun c hc => (hrest' c hc).1)
      rw [List.cons_append, scanFraction, htake, hdrop]
  next =>
    cases h
    refine ⟨[], rfl, by simp, by simp, ?_⟩
    intro rest' hrest'
    rw [List.nil_append]
    unfold scanFraction
    split
    next =>
      have hpoint := hrest' '.' rfl
      exact absurd rfl hpoint.2
    next => rfl

theorem scan?_extend {cs rest : List Char} {d : Decimal} (h : scan? cs = some (d, rest)) :
    ∃ used, cs = used ++ rest ∧ (∀ c ∈ used, isBlank c = false) ∧
      ∀ rest', Stops rest' → scan? (used ++ rest') = some (d, rest') := by
  have hwhole : ∀ c ∈ cs.takeWhile Char.isDigit, c.isDigit = true :=
    fun c hc => List.mem_takeWhile_imp hc
  rcases hf : scanFraction (cs.dropWhile Char.isDigit) with ⟨fraction, tail⟩
  rcases he : scanExponent tail with ⟨exponent, tail'⟩
  obtain ⟨fused, hfeq, hfblank, hfhead, hfraction⟩ := scanFraction_extend hf
  obtain ⟨eused, heeq, heblank, hehead, hexponent⟩ := scanExponent_extend he
  unfold scan? at h
  rw [hf] at h
  dsimp only at h
  rw [he] at h
  split at h
  · cases h
  next hsome =>
    cases h
    refine ⟨cs.takeWhile Char.isDigit ++ (fused ++ eused), ?_, ?_, ?_⟩
    · rw [List.append_assoc, List.append_assoc, ← heeq, ← hfeq, List.takeWhile_append_dropWhile]
    · intro c hc
      rcases List.mem_append.mp hc with hc | hc
      · exact Text.isBlank_of_isDigit (hwhole c hc)
      · rcases List.mem_append.mp hc with hc | hc
        · exact hfblank c hc
        · exact heblank c hc
    · intro rest' hrest'
      have hafter : ∀ c ∈ (eused ++ rest').head?, c.isDigit = false ∧ c ≠ '.' := by
        cases eused with
        | nil => exact fun c hc => ⟨(hrest' c hc).1, (hrest' c hc).2.1⟩
        | cons e eused => exact fun c hc => hehead c hc
      have hstop : ∀ c ∈ (fused ++ (eused ++ rest')).head?, c.isDigit = false := by
        cases fused with
        | nil => exact fun c hc => (hafter c hc).1
        | cons f fused => exact fun c hc => hfhead c hc
      obtain ⟨htake, hdrop⟩ := Text.takeWhile_append_stop hwhole (Text.takeWhile_stop hstop)
      rw [List.append_assoc, List.append_assoc]
      unfold scan?
      rw [htake, hdrop, hfraction _ hafter]
      dsimp only
      rw [if_neg hsome, hexponent _ hrest']

end OpenQasm.Decimal

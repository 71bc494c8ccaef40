import OpenQasm.Parameter
import OpenQasm.Proofs.Number.Text

/-!
# Reading tokens

One equation for each way in which a token can start, and what they give for the literal of a
number: a single number token, with a minus sign before it if the literal has one. Evaluated, the
literal is the number again.
-/
namespace OpenQasm.Expr

open OpenQasm.Text (isNameStart isNameChar)

theorem lex_nil : lex [] = .ok [] := by
  rw [lex]

theorem lex_cons (c : Char) (rest : List Char) :
    lex (c :: rest) =
      if Text.isBlank c then lex rest
      else if c.isDigit || c == '.' then
        match Decimal.scan? (c :: rest) with
        | some (d, rest') => (Token.number d.toFloat :: ·) <$> lex rest'
        | none => .error (c, rest.length + 1)
      else if isNameStart c then
        (Token.name (String.ofList (c :: rest.takeWhile isNameChar)) :: ·) <$>
          lex (rest.dropWhile isNameChar)
      else
        match scanSymbol? c rest with
        | some (s, rest') => (Token.symbol s :: ·) <$> lex rest'
        | none => .error (c, rest.length + 1) := by
  rw [lex]
  split
  · rfl
  · split
    · split <;> simp_all
    · split
      · rfl
      · split <;> simp_all

theorem lex_blank {c : Char} (h : Text.isBlank c = true) (rest : List Char) :
    lex (c :: rest) = lex rest := by
  rw [lex_cons, if_pos h]

theorem lex_number {c : Char} {rest rest' : List Char} {d : Decimal}
    (hblank : Text.isBlank c = false) (hc : (c.isDigit || c == '.') = true)
    (hscan : Decimal.scan? (c :: rest) = some (d, rest')) :
    lex (c :: rest) = (Token.number d.toFloat :: ·) <$> lex rest' := by
  rw [lex_cons, if_neg (by simp [hblank]), if_pos hc, hscan]

theorem lex_number_error {c : Char} {rest : List Char} (hblank : Text.isBlank c = false)
    (hc : (c.isDigit || c == '.') = true) (hscan : Decimal.scan? (c :: rest) = none) :
    lex (c :: rest) = .error (c, rest.length + 1) := by
  rw [lex_cons, if_neg (by simp [hblank]), if_pos hc, hscan]

theorem lex_name {c : Char} (hc : isNameStart c = true) (rest : List Char) :
    lex (c :: rest) =
      (Token.name (String.ofList (c :: rest.takeWhile isNameChar)) :: ·) <$>
        lex (rest.dropWhile isNameChar) := by
  have hpoint : (c == '.') = false := by
    rw [← Bool.not_eq_true, beq_iff_eq]
    rintro rfl
    cases hc
  rw [lex_cons, if_neg (by simp [Text.isBlank_of_isNameStart hc]),
    if_neg (by simp [Text.isDigit_of_isNameStart hc, hpoint]), if_pos hc]

/-- A character at which a symbol starts can start nothing else. -/
theorem scanSymbol?_start {c : Char} {rest rest' : List Char} {s : Symbol}
    (h : scanSymbol? c rest = some (s, rest')) :
    Text.isBlank c = false ∧ (c.isDigit || c == '.') = false ∧ isNameStart c = false := by
  unfold scanSymbol? at h
  split at h <;> first | decide | cases h

theorem lex_symbol {c : Char} {rest rest' : List Char} {s : Symbol}
    (hscan : scanSymbol? c rest = some (s, rest')) :
    lex (c :: rest) = (Token.symbol s :: ·) <$> lex rest' := by
  obtain ⟨hblank, hnumber, hname⟩ := scanSymbol?_start hscan
  rw [lex_cons, if_neg (by simp [hblank]), if_neg (by simp [hnumber]), if_neg (by simp [hname]),
    hscan]

theorem lex_stray {c : Char} {rest : List Char} (hblank : Text.isBlank c = false)
    (hnumber : (c.isDigit || c == '.') = false) (hname : isNameStart c = false)
    (hscan : scanSymbol? c rest = none) : lex (c :: rest) = .error (c, rest.length + 1) := by
  rw [lex_cons, if_neg (by simp [hblank]), if_neg (by simp [hnumber]), if_neg (by simp [hname]),
    hscan]

theorem scan?_start {c : Char} {rest rest' : List Char} {d : Decimal}
    (h : Decimal.scan? (c :: rest) = some (d, rest')) :
    Text.isBlank c = false ∧ (c.isDigit || c == '.') = true := by
  by_cases hc : c.isDigit = true
  · exact ⟨Text.isBlank_of_isDigit hc, by simp [hc]⟩
  · by_cases hpoint : c = '.'
    · subst hpoint
      decide
    · have hnone : Decimal.scan? (c :: rest) = none := by
        unfold Decimal.scan?
        rw [List.takeWhile_cons_of_neg hc, List.dropWhile_cons_of_neg hc]
        have hfraction : Decimal.scanFraction (c :: rest) = ([], c :: rest) := by
          unfold Decimal.scanFraction
          split
          next heq =>
            cases heq
            exact absurd rfl hpoint
          next => rfl
        rw [hfraction]
        rfl
      rw [hnone] at h
      cases h

theorem lex_decimal {cs : List Char} {d : Decimal} (h : Decimal.scan? cs = some (d, [])) :
    lex cs = .ok [.number d.toFloat] := by
  cases cs with
  | nil => cases h
  | cons c rest =>
      obtain ⟨hblank, hc⟩ := scan?_start h
      rw [lex_number hblank hc h, lex_nil]
      rfl

/-- The tokens of a literal: the number, or a minus sign and the number without its sign. -/
theorem lex_literal {x : Float} (hx : x.isFinite = true) :
    lex (Number.literal x).toList = .ok [.number x] ∨
      ∃ y, lex (Number.literal x).toList = .ok [.symbol .minus, .number y] ∧ -y = x := by
  have hminus (cs : List Char) : lex ('-' :: cs) = (Token.symbol .minus :: ·) <$> lex cs :=
    lex_symbol rfl
  rcases lt_trichotomy (Number.value x) 0 with hneg | hzero | hpos
  · obtain ⟨habs, hpos, hback⟩ := Number.abs_of_value_neg hx hneg
    obtain ⟨d, hscan, hd⟩ := Number.scan?_literal habs hpos
    refine .inr ⟨x.abs, ?_, hback⟩
    rw [Number.literal_of_value_neg hx hneg, hminus, lex_decimal hscan, hd]
    rfl
  · rcases Number.eq_zero_of_value hx hzero with rfl | rfl
    · have hscan : Decimal.scan? (Number.literal 0).toList = some (⟨0, -1⟩, []) := by
        decide +kernel
      exact .inl (lex_decimal hscan)
    · have hscan : Decimal.scan? "0.0".toList = some (⟨0, -1⟩, []) := by decide +kernel
      refine .inr ⟨0, ?_, rfl⟩
      have hliteral : (Number.literal (-0)).toList = '-' :: "0.0".toList := by decide +kernel
      rw [hliteral, hminus, lex_decimal hscan]
      rfl
  · obtain ⟨d, hscan, hd⟩ := Number.scan?_literal hx hpos
    rw [lex_decimal hscan, hd]
    exact .inl rfl

end OpenQasm.Expr

namespace OpenQasm.Calculator

open OpenQasm.Expr

/-- The literal of a number evaluates to that number, whatever the variables are. -/
theorem evaluate_literal (c : Calculator) {x : Float} (hx : x.isFinite = true) :
    c.evaluate (.expression (Number.literal x)) = .ok x := by
  unfold evaluate Expr.parse Expr.tokens
  dsimp only
  rcases lex_literal hx with hlex | ⟨y, hlex, rfl⟩
  · rw [hlex]
    rfl
  · rw [hlex]
    rfl

end OpenQasm.Calculator

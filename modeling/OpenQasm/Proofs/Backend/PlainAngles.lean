import OpenQasm.Proofs.Placeholder.Binding
import OpenQasm.Proofs.Text.Groups

/-!
# Angles that are plain numbers

A signed decimal can be read as it stands, or it can be evaluated as an expression. Evaluation skips
the blanks around it, takes the sign for an operator and the rest for one number, so no variable is
asked for and the number is the same. Hence a rotation by such an angle is written in the same way
with a calculator and without.
-/
namespace OpenQasm.Number

theorem scanBase_of_signedDecimal {cs : List Char} {negative : Bool} {d : Decimal}
    (h : signedDecimal? cs = some (negative, d)) : scanBase cs = none := by
  unfold scanBase
  split
  next c rest =>
    -- a letter after the zero leaves a rest behind the decimal
    have hmark (m : Char) (hm : m ∈ ['x', 'X', 'o', 'O', 'b', 'B']) : (c == m) = false := by
      rw [← Bool.not_eq_true, beq_iff_eq]
      rintro rfl
      simp only [List.mem_cons, List.not_mem_nil, or_false] at hm
      rcases hm with rfl | rfl | rfl | rfl | rfl | rfl <;> cases h
    simp [hmark 'x', hmark 'X', hmark 'o', hmark 'O', hmark 'b', hmark 'B']
  next => rfl

theorem read_of_signedDecimal {cs : List Char} {negative : Bool} {d : Decimal}
    (h : signedDecimal? (Text.trim cs) = some (negative, d)) :
    read cs = signed negative d.toFloat := by
  have hempty : (Text.trim cs).isEmpty = false := by
    rw [← Bool.not_eq_true, List.isEmpty_iff]
    intro hnil
    rw [hnil] at h
    cases h
  unfold read
  simp only [hempty, scanBase_of_signedDecimal h, h]
  rfl

end OpenQasm.Number

namespace OpenQasm.Expr

open OpenQasm.Text (isBlank)

theorem lex_blanks {lead : List Char} (h : ∀ c ∈ lead, isBlank c = true) (cs : List Char) :
    lex (lead ++ cs) = lex cs := by
  induction lead with
  | nil => rfl
  | cons c lead ih =>
      rw [List.cons_append, lex_blank (h c (.head _)), ih (fun d hd => h d (.tail _ hd))]

theorem stops_blanks {trail : List Char} (h : ∀ c ∈ trail, isBlank c = true) :
    Decimal.Stops trail := by
  intro c hc
  have hblank := h c (List.mem_of_mem_head? hc)
  refine ⟨?_, ?_, ?_, ?_⟩
  · rw [← Bool.not_eq_true]
    intro hdigit
    rw [Text.isBlank_of_isDigit hdigit] at hblank
    cases hblank
  all_goals
    rintro rfl
    cases hblank

theorem lex_decimal_blanks {cs trail : List Char} {d : Decimal}
    (h : Decimal.scan? cs = some (d, [])) (htrail : ∀ c ∈ trail, isBlank c = true) :
    lex (cs ++ trail) = .ok [.number d.toFloat] := by
  obtain ⟨used, heq, -, hagain⟩ := Decimal.scan?_extend h
  rw [List.append_nil] at heq
  subst heq
  have hscan := hagain trail (stops_blanks htrail)
  have hend : lex trail = .ok [] := by
    have hskip := lex_blanks htrail []
    rwa [List.append_nil, lex_nil] at hskip
  cases cs with
  | nil => cases h
  | cons c rest =>
      obtain ⟨hblank, hc⟩ := scan?_start h
      rw [List.cons_append] at hscan ⊢
      rw [lex_number hblank hc hscan, hend]
      rfl

/-- The tokens that a signed decimal can have: the number alone, or after its sign. -/
inductive Signs (x : Float) : Bool → List Token → Prop
  | none : Signs x false [.number x]
  | plus : Signs x false [.symbol .plus, .number x]
  | minus : Signs x true [.symbol .minus, .number x]

theorem lex_signedDecimal {cs trail : List Char} {negative : Bool} {d : Decimal}
    (h : Number.signedDecimal? cs = some (negative, d)) (htrail : ∀ c ∈ trail, isBlank c = true) :
    ∃ ts, lex (cs ++ trail) = .ok ts ∧ Signs d.toFloat negative ts := by
  have hsign (c : Char) (s : Symbol) (hs : ∀ rest, scanSymbol? c rest = some (s, rest))
      {rest : List Char} (hrest : Decimal.scan? rest = some (d, [])) :
      lex (c :: rest ++ trail) = .ok [.symbol s, .number d.toFloat] := by
    rw [List.cons_append, lex_symbol (hs _), lex_decimal_blanks hrest htrail]
    rfl
  unfold Number.signedDecimal? at h
  dsimp only at h
  split at h
  next d' hscan =>
    cases h
    unfold Number.scanSign at hscan ⊢
    split at hscan
    · exact ⟨_, hsign '-' .minus (fun _ => rfl) hscan, .minus⟩
    · exact ⟨_, hsign '+' .plus (fun _ => rfl) hscan, .plus⟩
    · exact ⟨_, lex_decimal_blanks hscan htrail, .none⟩
  next => cases h

end OpenQasm.Expr

namespace OpenQasm.Line

/-- The line of a rotation by a text that has a value: the text itself if it is a placeholder, else
the value. -/
theorem ofOperation_rotation {o : Options} {text : String} {x : Float}
    (h : (Parameter.expression text).resolve o.resolver = .ok x) (axis : Axis) (qubit : Float) :
    ofOperation o (.gate (.rotation axis qubit (.expression text))) =
      (fun operand => [.apply (GateKind.rotation axis).mnemonic
        [if o.placeholders text then text else Number.literal x] [operand]]) <$> o.qubit qubit := by
  have hparameter : o.parameter (.expression text) =
      .ok (if o.placeholders text then text else Number.literal x) := by
    unfold Options.parameter Options.resolve
    dsimp only
    rw [h]
    split <;> rfl
  unfold ofOperation
  dsimp only
  rw [Placeholder.ofGate_rotation, hparameter]
  cases o.qubit qubit <;> rfl

end OpenQasm.Line

namespace OpenQasm.Calculator

open OpenQasm.Expr

theorem evaluate_of_isLiteral (c : Calculator) {text : String}
    (h : Number.isLiteral text.toList = true) :
    c.evaluate (.expression text) = .ok (Number.read text.toList) := by
  obtain ⟨⟨negative, d⟩, hd⟩ := Option.isSome_iff_exists.mp h
  obtain ⟨lead, trail, hlead, htrail, htext⟩ := Text.exists_trim text.toList
  obtain ⟨ts, hlex, hsigns⟩ := lex_signedDecimal hd htrail
  rw [Number.read_of_signedDecimal hd]
  unfold evaluate Expr.parse Expr.tokens
  dsimp only
  rw [htext, lex_blanks hlead, hlex]
  cases hsigns <;> rfl

/-- A text that is not symbolic is a plain number to every calculator: it has the value that it is
read as without one. So a rotation by it is written in the same way, as a rotation by that value
unless the text is a placeholder. -/
theorem evaluate_plainNumber (c : Calculator) {text : String}
    (h : (Parameter.expression text).isSymbolic = false) :
    c.evaluate (.expression text) = .ok (Number.read text.toList) ∧
      (Parameter.expression text).resolve none = .ok (Number.read text.toList) ∧
      (Parameter.expression text).resolve (some c.evaluate) = .ok (Number.read text.toList) ∧
      ∀ (o : Line.Options) (axis : Axis) (qubit : Float),
        Line.ofOperation { o with resolver := none }
            (.gate (.rotation axis qubit (.expression text))) =
          Line.ofOperation { o with resolver := some c.evaluate }
            (.gate (.rotation axis qubit (.expression text))) ∧
        ∀ operand, o.qubit qubit = .ok operand → o.placeholders text = false →
          Line.ofOperation { o with resolver := some c.evaluate }
              (.gate (.rotation axis qubit (.expression text))) =
            .ok [.apply (GateKind.rotation axis).mnemonic
              [Number.literal (Number.read text.toList)] [operand]] := by
  have hliteral : Number.isLiteral text.toList = true := by
    unfold Parameter.isSymbolic at h
    simpa using h
  have hvalue := c.evaluate_of_isLiteral hliteral
  have hnone : (Parameter.expression text).resolve none = .ok (Number.read text.toList) := by
    unfold Parameter.resolve
    dsimp only
    rw [if_pos hliteral]
  refine ⟨hvalue, hnone, hvalue, fun o axis qubit => ?_⟩
  have hwithout := Line.ofOperation_rotation (o := { o with resolver := none }) hnone axis qubit
  have hwith := Line.ofOperation_rotation (o := { o with resolver := some c.evaluate }) hvalue
    axis qubit
  refine ⟨hwithout.trans hwith.symm, fun operand hoperand hplain => ?_⟩
  have hqubit : Line.Options.qubit { o with resolver := some c.evaluate } qubit = .ok operand :=
    hoperand
  rw [hwith, hqubit, hplain]
  rfl

/-- A variable with the name of the exponent mark does not change a number. -/
theorem evaluate_plainNumber_exponent :
    (Parameter.expression " -1e2\t").isSymbolic = false ∧
      (ofList [("e", 7)]).evaluate (.expression " -1e2\t") = .ok (-100) ∧
      Line.ofOperation { Line.Options.default with resolver := some (ofList [("e", 7)]).evaluate }
          (.gate (.rotation .x 3 (.expression " -1e2\t"))) =
        .ok [.apply "rx" ["-100.0"] ["q[3]"]] := by
  have hplain : (Parameter.expression " -1e2\t").isSymbolic = false := by decide +kernel
  have hread : Number.read " -1e2\t".toList = -100 := by decide +kernel
  have hliteral : Number.literal (-100) = "-100.0" := by decide +kernel
  have hqubit : Line.Options.default.qubit 3 = .ok "q[3]" := by decide +kernel
  obtain ⟨hvalue, -, -, hlines⟩ := evaluate_plainNumber (ofList [("e", 7)]) hplain
  have hline := (hlines Line.Options.default .x 3).2 "q[3]" hqubit rfl
  rw [hread] at hvalue hline
  rw [hliteral] at hline
  exact ⟨hplain, hvalue, hline⟩

end OpenQasm.Calculator

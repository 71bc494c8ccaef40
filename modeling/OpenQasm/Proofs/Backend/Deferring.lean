import OpenQasm.Proofs.Backend.Writing
import OpenQasm.Proofs.Placeholder.Composition
import OpenQasm.Proofs.Simulator.Requests

/-!
# Circuits with deferred angles

A circuit whose symbolic angles are deferred needs no values for them: it has a program if it would
have one with numbers in their place. A text keeps the token that it was given first. So the lines
of such a program can be said from the cache in the end, although each was written with the cache
of its time.
-/
namespace OpenQasm

open Placeholder

namespace Placeholder.Cache

theorem tokens_stage {c : Cache} {key token : String} (h : c.tokens.get? key = some token)
    (value : Parameter) : (c.stage value).2.tokens.get? key = some token := by
  cases hget : c.tokens.get? (canonical value) with
  | some known =>
      rw [stage_of_known hget]
      exact h
  | none =>
      have hne : key ≠ canonical value := by
        rintro rfl
        rw [hget] at h
        cases h
      rw [stage_of_new hget]
      exact (Table.get?_insert_of_ne _ _ hne).trans h

theorem tokens_stage_self (c : Cache) (value : Parameter) :
    (c.stage value).2.tokens.get? (canonical value) = some (c.stage value).1 := by
  cases hget : c.tokens.get? (canonical value) with
  | some known =>
      rw [stage_of_known hget]
      exact hget
  | none =>
      rw [stage_of_new hget]
      exact Table.get?_insert_self _ _ _

theorem tokens_stageAll {c : Cache} {key token : String} (h : c.tokens.get? key = some token)
    (values : List Parameter) : (c.stageAll values).tokens.get? key = some token := by
  induction values generalizing c with
  | nil => exact h
  | cons value values ih => exact ih (tokens_stage h value)

/-- Staged again after others, a value gets the token that it has, and the cache stays. -/
theorem stage_stageAll_cons (c : Cache) (value : Parameter) (values : List Parameter) :
    (c.stageAll (value :: values)).stage value =
      ((c.stage value).1, c.stageAll (value :: values)) :=
  stage_of_known (tokens_stageAll (c.tokens_stage_self value) values)

theorem stage_stageAll_of_mem (c : Cache) {value : Parameter} {values : List Parameter}
    (h : value ∈ values) : ((c.stageAll values).stage value).2 = c.stageAll values := by
  induction values generalizing c with
  | nil => cases h
  | cons first values ih =>
      rcases List.mem_cons.mp h with rfl | h
      · rw [stage_stageAll_cons]
      · exact ih (c.stage first).2 h

theorem Coherent.of_mem_stageAll {c : Cache} (h : c.Coherent) (values : List Parameter) :
    ∀ e ∈ (c.stageAll values).entries, e ∈ c.entries ∨ e.2 ∈ values := by
  induction values generalizing c with
  | nil => exact fun e he => .inl he
  | cons value values ih =>
      intro e he
      rcases ih (h.staged value).coherent e he with he | he
      · rcases (h.staged value).of_mem e he with he | rfl
        · exact .inl he
        · exact .inr (.head _)
      · exact .inr (.tail _ he)

end Placeholder.Cache

namespace Operation

/-- An operation with a number in place of its angle, if that is symbolic. -/
def bindAngle (number : Parameter → Float) : Operation → Operation
  | gate (.rotation axis qubit theta) =>
      gate (.rotation axis qubit (if theta.isSymbolic then .number (number theta) else theta))
  | op => op

theorem not_symbolic_of_deferred {axis : Axis} {qubit : Float} {theta : Parameter}
    (h : (gate (.rotation axis qubit theta)).deferred? = none) : ¬theta.isSymbolic = true := by
  simpa [deferred?] using h

theorem bindAngle_of_not_deferred {op : Operation} (h : op.deferred? = none)
    (number : Parameter → Float) : op.bindAngle number = op := by
  cases op with
  | gate g =>
      cases g with
      | rotation axis qubit theta => rw [bindAngle, if_neg (not_symbolic_of_deferred h)]
      | _ => rfl
  | _ => rfl

theorem qubits_bindAngle (number : Parameter → Float) (op : Operation) :
    (op.bindAngle number).qubits = op.qubits := by
  cases op with
  | gate g => cases g <;> rfl
  | _ => rfl

theorem isWritten_bindAngle (number : Parameter → Float) (op : Operation) :
    Classified.isWritten (op.bindAngle number) = Classified.isWritten op := by
  cases op with
  | gate g => cases g <;> rfl
  | _ => rfl

end Operation

namespace Backend

/-- A circuit that has a program in symbolic mode, under default options: it is written in full with
any numbers in place of its symbolic angles. No register is called like a placeholder. -/
structure Deferrable (ops : List Operation) : Prop where
  names : ∀ d ∈ Declaration.collect ops, Text.isName d.name.toList = true ∧
    d.name ≠ defaultRegister ∧ ¬IsTokenWord d.name.toList
  lengths : ∀ d ∈ Declaration.collect ops, IsSize d.length
  distinct : ((Declaration.collect ops).map Declaration.name).Nodup
  operations : ∀ op ∈ ops,
    IsWritable .default (Declaration.collect ops) (op.bindAngle (fun _ => 0))
  unmixed : ¬ ((∃ m, .measureRepeatedly m ∈ ops) ∧ ∃ m, .measure m ∈ ops)

def placeholders (ops : List Operation) : Cache :=
  Cache.empty.stageAll (ops.filterMap Operation.deferred?)

theorem coherent_placeholders (ops : List Operation) : (placeholders ops).Coherent :=
  Cache.coherent_empty.stageAll _

/-- The token of a symbolic angle of the circuit stands for an angle of the same text up to
blanks. -/
theorem stage_placeholders {ops : List Operation} {theta : Parameter}
    (h : theta ∈ ops.filterMap Operation.deferred?) :
    ∃ token text text', (placeholders ops).stage theta = (token, placeholders ops) ∧
      IsTokenWord token.toList ∧ token ∈ (placeholders ops).values.keys ∧
      theta = .expression text ∧
      (placeholders ops).resolve token = .ok (.expression text') ∧
      Text.removeBlanks text'.toList = Text.removeBlanks text.toList := by
  have hsymbolic : ∀ value ∈ ops.filterMap Operation.deferred?,
      ∃ text, value = .expression text := by
    intro value hvalue
    obtain ⟨op, -, hop⟩ := List.mem_filterMap.mp hvalue
    obtain ⟨-, -, -, hsymbolic⟩ := Operation.eq_rotation_of_deferred hop
    cases value with
    | number x => cases hsymbolic
    | expression text => exact ⟨text, rfl⟩
  have hcoherent := coherent_placeholders ops
  have hstaged := hcoherent.staged theta
  have hsame : ((placeholders ops).stage theta).2 = placeholders ops :=
    Cache.stage_stageAll_of_mem _ h
  rw [hsame] at hstaged
  obtain ⟨value, hmem, hcanonical⟩ := hstaged.found
  have hkey := List.mem_map_of_mem (f := Prod.fst) hmem
  obtain ⟨text, rfl⟩ := hsymbolic theta h
  obtain ⟨text', rfl⟩ : ∃ text', value = .expression text' := by
    rcases Cache.coherent_empty.of_mem_stageAll _ _ hmem with hnone | hvalue
    · cases hnone
    · exact hsymbolic value hvalue
  exact ⟨_, text, text', Prod.ext rfl hsame, hcoherent.isTokenWord _ hkey, hkey, rfl,
    hcoherent.resolve_eq_ok_iff.mpr hmem, removeBlanks_eq_of_canonical hcanonical⟩

/-- The lines of an operation, with the token of its angle if that is symbolic. -/
def deferredLines (c : Cache) (op : Operation) : List Line :=
  match op with
  | .gate (.rotation axis qubit theta) =>
      if theta.isSymbolic then
        [.apply (GateKind.rotation axis).mnemonic [(c.stage theta).1]
          [element defaultRegister qubit]]
      else written .default op
  | op => written .default op

theorem deferredLines_of_symbolic (c : Cache) (axis : Axis) (qubit : Float) {theta : Parameter}
    (h : theta.isSymbolic = true) :
    deferredLines c (.gate (.rotation axis qubit theta)) =
      [.apply (GateKind.rotation axis).mnemonic [(c.stage theta).1]
        [element defaultRegister qubit]] :=
  if_pos h

theorem deferredLines_of_not_deferred (c : Cache) {op : Operation} (h : op.deferred? = none) :
    deferredLines c op = written .default op := by
  cases op with
  | gate g =>
      cases g with
      | rotation axis qubit theta => exact if_neg (Operation.not_symbolic_of_deferred h)
      | _ => rfl
  | _ => rfl

/-- The options of lines of a default backend for a circuit without inputs. -/
def defaultLines : Line.Options :=
  ⟨⟨defaultRegister, none⟩, some (substitutionCalculator .default).evaluate, fun _ => false⟩

/-- The body of operations that have lines but for their symbolic angles. What was staged at the
time of an operation has the same token in the end. -/
theorem ofOperations_deferredLines {c final : Cache} (hc : c.Coherent) {ops : List Operation}
    (h : ∀ op ∈ ops, op.isDefinition = false → op.deferred? = none →
      Line.ofOperation defaultLines op = .ok (written .default op))
    (hfinal : c.stageAll (ops.filterMap Operation.deferred?) = final) :
    Body.ofOperations defaultLines (some c) ops =
      .ok ⟨(Declaration.collect ops).map Declaration.line, ops.flatMap (deferredLines final),
        some final⟩ := by
  induction ops generalizing c with
  | nil =>
      cases hfinal
      rfl
  | cons op ops ih =>
      have htail (op' : Operation) (hop' : op' ∈ ops) := h op' (.tail _ hop')
      rw [Body.ofOperations, List.flatMap_cons]
      by_cases hdef : op.isDefinition = true
      · cases op with
        | define d =>
            change (Body.ofOperations defaultLines (some c) ops >>= _) = _
            rw [ih hc htail hfinal]
            rfl
        | _ => cases hdef
      rw [Bool.not_eq_true] at hdef
      have hcollect : Declaration.collect (op :: ops) = Declaration.collect ops := by
        have hnone : op.definition? = none := by
          unfold Operation.isDefinition at hdef
          simpa using hdef
        simp [Declaration.collect, hnone]
      rw [hcollect]
      cases hdeferred : op.deferred? with
      | none =>
          rw [List.filterMap_cons_none hdeferred] at hfinal
          rw [Body.step_of_not_deferred hdef hdeferred, h op (.head _) hdef hdeferred,
            deferredLines_of_not_deferred _ hdeferred]
          change (Body.ofOperations defaultLines (some c) ops >>= _) = _
          rw [ih hc htail hfinal]
          rfl
      | some theta =>
          obtain ⟨axis, qubit, rfl, htheta⟩ := Operation.eq_rotation_of_deferred hdeferred
          rw [List.filterMap_cons_some hdeferred] at hfinal
          have htoken : (final.stage theta).1 = (c.stage theta).1 := by
            rw [← hfinal, Cache.stage_stageAll_cons]
          rw [step_of_symbolic _ hc axis qubit htheta, deferredLines_of_symbolic _ _ _ htheta,
            htoken]
          change (Body.ofOperations defaultLines (some (c.stage theta).2) ops >>= _) = _
          rw [ih (hc.staged theta).coherent htail hfinal]
          rfl

def deferredOutput (ops : List Operation) : Output :=
  ⟨Program.compose defaultRegister (Backend.size .default ⟨none, ops⟩)
    (((Declaration.collect ops).map Declaration.line).map Line.terminated)
    ((ops.flatMap (deferredLines (placeholders ops))).map Line.terminated),
    Backend.size .default ⟨none, ops⟩,
    ⟨(Declaration.collect ops).map Declaration.line,
      ops.flatMap (deferredLines (placeholders ops)), some (placeholders ops)⟩⟩

namespace Deferrable

variable {ops : List Operation}

theorem isIndex (h : Deferrable ops) : ∀ q ∈ ops.flatMap Operation.qubits, IsIndex q := by
  intro q hq
  obtain ⟨op, hop, hq⟩ := List.mem_flatMap.mp hq
  rw [← op.qubits_bindAngle (fun _ => 0)] at hq
  exact (h.operations op hop).isIndex q hq

theorem exists_size (h : Deferrable ops) :
    ∃ n : ℕ, 0 < n ∧ n < 2 ^ 53 ∧ Backend.size .default ⟨none, ops⟩ = Float.ofNat n ∧
      ∀ q ∈ ops.flatMap Operation.qubits, Number.value q < n := by
  obtain ⟨n, hn, heq, hbound⟩ := larger_qubitCount (c := ⟨none, ops⟩) h.isIndex
  obtain ⟨hpos, hlt⟩ := (hbound n).mp le_rfl
  exact ⟨n, hpos, hn, heq, hlt⟩

/-- Nothing is measured in two ways, and nothing is asked of the simulator. -/
theorem exists_classified (h : Deferrable ops) :
    ∃ c, Classified.ofOperations none ops false = .ok c ∧ c.circuit = ⟨none, ops⟩ ∧
      calculator .default c.metadata = substitutionCalculator .default := by
  have hnatural : ∀ op ∈ ops, ∀ q ∈ op.qubits, Number.isNatural q = true := fun op hop q hq =>
    (h.isIndex q (List.mem_flatMap.mpr ⟨op, hop, hq⟩)).1
  have hconflicts : Metadata.conflicts ops = [] := by
    refine (conflicts_eq_nil_iff ops).mpr ⟨h.unmixed, ?_⟩
    rintro ⟨⟨readout, hop⟩, -⟩
    exact h.operations _ hop
  have hwritten : ops.filter Classified.isWritten = ops := by
    refine List.filter_eq_self.mpr (fun op hop => ?_)
    rw [← op.isWritten_bindAngle (fun _ => 0)]
    exact (h.operations op hop).isWritten
  have hinputs : ops.filterMap Operation.recorded? = [] := by
    refine List.filterMap_eq_nil_iff.mpr (fun op hop => ?_)
    have hop' := h.operations op hop
    cases op with
    | input name value => exact absurd hop' id
    | _ => rfl
  obtain ⟨c, hc⟩ := (reports_classified hnatural).exists_ok_iff.mpr
    (List.map_eq_nil_iff.mpr hconflicts)
  obtain ⟨rfl, -⟩ := Classified.ofOperations_ok hc
  refine ⟨_, hc, ?_, ?_⟩
  · unfold Classified.after
    rw [hwritten]
    rfl
  · change calculator .default (ops.foldl Metadata.record .empty) = _
    rw [calculator_foldl, valuesOf, hinputs]
    rfl

theorem compile_eq (h : Deferrable ops) : compile .default ops true = .ok (deferredOutput ops) := by
  obtain ⟨c, hclassified, hcircuit, hcalculator⟩ := h.exists_classified
  have hlines : ∀ op ∈ ops, op.isDefinition = false → op.deferred? = none →
      Line.ofOperation defaultLines op = .ok (written .default op) := by
    intro op hop hdef hdeferred
    have hop' := h.operations op hop
    rw [Operation.bindAngle_of_not_deferred hdeferred] at hop'
    exact ofOperation_eq rfl hop' hdef
  have hbody := ofOperations_deferredLines Cache.coherent_empty hlines rfl
  rw [compile_of_classified _ _ hclassified, hcalculator, hcircuit]
  change ((Body.ofOperations defaultLines (some Cache.empty) ops).mapError Error.line >>= _) = _
  rw [hbody]
  rfl

/-- A default backend writes the program and holds its placeholders. -/
theorem run_eq (h : Deferrable ops) :
    (Backend.new .default).run ops true =
      (.ok (deferredOutput ops), ⟨.default, some (placeholders ops)⟩) := by
  unfold Backend.run
  rw [show (Backend.new .default).options = Options.default from rfl, h.compile_eq]
  rfl

end Deferrable

end Backend

end OpenQasm

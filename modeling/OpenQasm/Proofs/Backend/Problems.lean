import OpenQasm.Proofs.Backend.History
import OpenQasm.Proofs.Failure
import OpenQasm.Proofs.Number.Order
import OpenQasm.Proofs.Placeholder.Binding
import OpenQasm.Proofs.Simulator.Readout

/-!
# Why a circuit has no program

A circuit can be in conflict with itself, and each of its operations can have problems of its own:
it is of no known kind, its parameters have no value, its qubits have no name. The list of all
problems, conflicts first and then operation by operation, decides what compiling returns. It
succeeds if the list is empty and reports the first problem otherwise. What only concerns the
simulator is never written, and so never a problem.
-/
namespace OpenQasm

open Placeholder

def Parameter.problems (calculator : Calculator) (p : Parameter) : List Parameter.Error :=
  match calculator.evaluate p with
  | .ok _ => []
  | .error e => [e]

def QubitNames.problems (names : Option QubitNames) (q : Float) : List UnnamedQubit :=
  match names with
  | none => []
  | some names => if names.contains ⟨q⟩ then [] else [⟨q⟩]

namespace Operation

/-- The parameters that are evaluated. A symbolic angle can be deferred; the parameters of a general
gate cannot. -/
def evaluated (symbolic : Bool) : Operation → List Parameter
  | gate (.rotation _ _ theta) => if symbolic && theta.isSymbolic then [] else [theta]
  | column g => [g.alphaReal, g.alphaImag, g.betaReal, g.betaImag]
  | _ => []

/-- The qubits that are written, in the order of writing. -/
def operands : Operation → List Float
  | gate g => g.qubits
  | column g => [g.qubit]
  | measure m => [m.qubit]
  | measureRepeatedly m =>
      match m.mapping with
      | some mapping => Number.sortOn id mapping.qubits
      | none => []
  | _ => []

/-- An operation that only its name is known of has no line. -/
def refusals : Operation → List Line.Error
  | foreign name _ => [.unsupported name .noRule]
  | _ => []

/-- The problems of one operation: parameters come before qubits. -/
def problems (names : Option QubitNames) (calculator : Calculator) (symbolic : Bool)
    (op : Operation) : List Line.Error :=
  op.refusals ++
    (op.evaluated symbolic).flatMap (fun p => (p.problems calculator).map .parameter) ++
    op.operands.flatMap (fun q => (QubitNames.problems names q).map .unnamed)

theorem mem_operands_iff {op : Operation} (h : op.refusals = []) {q : Float} :
    q ∈ op.operands ↔ q ∈ op.qubits := by
  cases op with
  | measureRepeatedly m =>
      obtain ⟨readout, count, mapping⟩ := m
      cases mapping with
      | some mapping => exact (Number.sortOn_perm id mapping.qubits).mem_iff
      | none => exact Iff.rfl
  | foreign name qubits => cases h
  | _ => exact Iff.rfl

theorem problems_eq_nil_iff {names : Option QubitNames} {calculator : Calculator}
    {symbolic : Bool} {op : Operation} :
    op.problems names calculator symbolic = [] ↔
      op.refusals = [] ∧
      (∀ p ∈ op.evaluated symbolic, ∃ x, calculator.evaluate p = .ok x) ∧
      ∀ q ∈ op.qubits, ∀ given, names = some given → given.contains ⟨q⟩ = true := by
  have hparameter (p : Parameter) :
      (p.problems calculator).map Line.Error.parameter = [] ↔
        ∃ x, calculator.evaluate p = .ok x := by
    unfold Parameter.problems
    cases calculator.evaluate p <;> simp
  have hqubit (q : Float) : (QubitNames.problems names q).map Line.Error.unnamed = [] ↔
      ∀ given, names = some given → given.contains ⟨q⟩ = true := by
    unfold QubitNames.problems
    cases names <;> simp
  unfold problems
  rw [List.append_eq_nil_iff, List.append_eq_nil_iff, List.flatMap_eq_nil_iff,
    List.flatMap_eq_nil_iff, and_assoc]
  simp only [hparameter, hqubit]
  refine and_congr_right (fun h => and_congr_right (fun _ => ?_))
  simp only [mem_operands_iff h]

end Operation

namespace Line

variable {calculator : Calculator} {naming : Naming}

theorem reports_qubit (o : Options) (q : Float) :
    Reports (o.qubit q) ((QubitNames.problems o.naming.names q).map .unnamed) := by
  refine Reports.mapError ?_ _
  unfold Naming.resolve QubitNames.problems Table.contains
  cases o.naming.names with
  | none => exact .ok _
  | some names =>
      dsimp only
      cases names.get? ⟨q⟩ with
      | none => exact .error _
      | some name => exact .ok name

theorem reports_resolve (p : Parameter) :
    Reports ((directOptions calculator naming).resolve p)
      ((p.problems calculator).map .parameter) := by
  refine Reports.mapError ?_ _
  change Reports (calculator.evaluate p) _
  unfold Parameter.problems
  cases calculator.evaluate p with
  | ok x => exact .ok x
  | error e => exact .error e

theorem reports_parameter (p : Parameter) :
    Reports ((directOptions calculator naming).parameter p)
      ((p.problems calculator).map .parameter) := by
  cases p with
  | number x => exact (reports_resolve _).map _
  | expression text => exact (reports_resolve _).map _

theorem ofGate_eq (o : Options) (g : Gate) :
    ofGate o g = (do
      let parameters ← ((Operation.gate g).evaluated false).mapM o.parameter
      let operands ← g.qubits.mapM o.qubit
      return .apply g.kind.mnemonic (parameters ++ g.kind.constants) operands) := by
  cases g <;> rfl

theorem reports_operands (o : Options) (qs : List Float) :
    Reports (qs.mapM o.qubit)
      (qs.flatMap (fun q => (QubitNames.problems o.naming.names q).map .unnamed)) :=
  .mapM (fun q _ => reports_qubit o q)

theorem reports_ofGate (g : Gate) :
    Reports (ofGate (directOptions calculator naming) g)
      ((Operation.gate g).problems naming.names calculator false) := by
  rw [ofGate_eq]
  refine Reports.bind (.mapM (fun p _ => reports_parameter p)) (fun parameters _ => ?_)
  exact (reports_operands _ g.qubits).map _

theorem reports_ofColumn (g : ColumnGate) :
    Reports (ofColumn (directOptions calculator naming) g)
      ((Operation.column g).problems naming.names calculator false) := by
  have hparts : (Operation.column g).problems naming.names calculator false =
      (g.alphaReal.problems calculator).map .parameter ++
      ((g.alphaImag.problems calculator).map .parameter ++
      ((g.betaReal.problems calculator).map .parameter ++
      ((g.betaImag.problems calculator).map .parameter ++
      (QubitNames.problems naming.names g.qubit).map .unnamed))) := by
    simp [Operation.problems, Operation.refusals, Operation.evaluated, Operation.operands]
  rw [hparts]
  unfold ofColumn
  refine (reports_resolve g.alphaReal).bind (fun _ _ => ?_)
  refine (reports_resolve g.alphaImag).bind (fun _ _ => ?_)
  refine (reports_resolve g.betaReal).bind (fun _ _ => ?_)
  refine (reports_resolve g.betaImag).bind (fun _ _ => ?_)
  exact (reports_qubit _ g.qubit).map _

theorem reports_ofMeasurement (m : Measurement) :
    Reports (ofMeasurement (directOptions calculator naming) m)
      ((Operation.measure m).problems naming.names calculator false) := by
  have hqubit : (Operation.measure m).problems naming.names calculator false =
      (QubitNames.problems naming.names m.qubit).map .unnamed := by
    simp [Operation.problems, Operation.refusals, Operation.evaluated, Operation.operands]
  rw [hqubit]
  exact (reports_qubit _ m.qubit).map _

theorem map_fst_sortOn (mapping : QubitMapping) :
    (Number.sortOn Prod.fst (mapping.toList.map (fun e => (Number.read e.1.toList, e.2)))).map
      Prod.fst = Number.sortOn id mapping.qubits := by
  have hqubits : (mapping.toList.map (fun e => (Number.read e.1.toList, e.2))).map Prod.fst =
      mapping.qubits := by
    unfold QubitMapping.qubits Table.keys
    rw [List.map_map, List.map_map]
    rfl
  rw [← hqubits]
  exact Number.sortOn_map Prod.fst id _

theorem reports_ofRepeated (m : RepeatedMeasurement) :
    Reports (ofRepeated (directOptions calculator naming) m)
      ((Operation.measureRepeatedly m).problems naming.names calculator false) := by
  obtain ⟨readout, count, mapping⟩ := m
  cases mapping with
  | some mapping =>
      have hproblems : (Operation.measureRepeatedly ⟨readout, count, some mapping⟩).problems
          naming.names calculator false =
          (Number.sortOn Prod.fst
            (mapping.toList.map (fun e => (Number.read e.1.toList, e.2)))).flatMap
            (fun e => (QubitNames.problems naming.names e.1).map .unnamed) := by
        change (Number.sortOn id mapping.qubits).flatMap _ = _
        rw [← map_fst_sortOn, List.flatMap_map]
      rw [hproblems]
      exact .mapM (fun e _ => (reports_qubit _ e.1).map _)
  | none =>
      unfold ofRepeated
      dsimp only
      split
      · exact .ok _
      · exact .ok _

theorem reports_ofOperation {op : Operation} (h : Classified.isWritten op = true) :
    Reports (ofOperation (directOptions calculator naming) op)
      (op.problems naming.names calculator false) := by
  cases op with
  | gate g => exact (reports_ofGate g).map _
  | column g => exact (reports_ofColumn g).map _
  | measure m => exact (reports_ofMeasurement m).map _
  | measureRepeatedly m => exact reports_ofRepeated m
  | define d => exact .ok _
  | input name value => exact .ok _
  | foreign name qubits => exact .error _
  | _ => cases h

end Line

namespace Operation

/-- Only a symbolic angle is treated differently in symbolic mode. -/
theorem problems_of_not_deferred {op : Operation} (h : op.deferred? = none)
    (names : Option QubitNames) (calculator : Calculator) (symbolic : Bool) :
    op.problems names calculator symbolic = op.problems names calculator false := by
  have hevaluated : op.evaluated symbolic = op.evaluated false := by
    cases op with
    | gate g =>
        cases g with
        | rotation axis qubit theta =>
            have htheta : theta.isSymbolic = false := by simpa [deferred?] using h
            simp [evaluated, htheta]
        | _ => rfl
    | _ => rfl
  unfold problems
  rw [hevaluated]

end Operation

namespace Body

variable {calculator : Calculator} {naming : Naming}

/-- A deferred angle is no problem, so only the qubit can be one. -/
theorem reports_deferred {c : Cache} (hc : c.Coherent) {axis : Axis} {qubit : Float}
    {theta : Parameter} (h : theta.isSymbolic = true) :
    Reports (step (directOptions calculator naming) (some c) (.gate (.rotation axis qubit theta)))
      ((QubitNames.problems naming.names qubit).map .unnamed) := by
  rw [step_of_symbolic _ hc axis qubit h]
  exact (Line.reports_qubit _ qubit).map _

theorem reports_step {cache : Option Cache} (hcache : ∀ c ∈ cache, c.Coherent) {op : Operation}
    (h : Classified.isWritten op = true) :
    Reports (step (directOptions calculator naming) cache op)
      (op.problems naming.names calculator cache.isSome) := by
  by_cases hdef : op.isDefinition = true
  · cases op with
    | define d => cases cache <;> exact .ok _
    | _ => cases hdef
  rw [Bool.not_eq_true] at hdef
  cases cache with
  | none =>
      rw [step_none hdef]
      exact (Line.reports_ofOperation h).map _
  | some c =>
      cases hdeferred : op.deferred? with
      | none =>
          rw [step_of_not_deferred hdef hdeferred, Operation.problems_of_not_deferred hdeferred]
          exact (Line.reports_ofOperation h).map _
      | some theta =>
          obtain ⟨axis, qubit, rfl, htheta⟩ := Operation.eq_rotation_of_deferred hdeferred
          have hproblems : (Operation.gate (.rotation axis qubit theta)).problems naming.names
              calculator (some c).isSome =
              (QubitNames.problems naming.names qubit).map .unnamed := by
            simp [Operation.problems, Operation.refusals, Operation.evaluated,
              Operation.operands, Gate.qubits, htheta]
          rw [hproblems]
          exact reports_deferred (hcache c rfl) htheta

theorem reports_ofOperations {cache : Option Cache} (hcache : ∀ c ∈ cache, c.Coherent)
    {ops : List Operation} (h : ∀ op ∈ ops, Classified.isWritten op = true) :
    Reports (ofOperations (directOptions calculator naming) cache ops)
      (ops.flatMap (fun op => op.problems naming.names calculator cache.isSome)) := by
  induction ops generalizing cache with
  | nil => exact .ok _
  | cons op ops ih =>
      rw [ofOperations, List.flatMap_cons]
      refine (reports_step hcache (h op (.head _))).bind (fun head hhead => ?_)
      -- The cache goes on from operation to operation and stays coherent.
      have hnext := step_cache hhead
      have hcoherent : ∀ c ∈ head.cache, c.Coherent := by
        intro c' hc'
        rw [hnext] at hc'
        obtain ⟨c, hc, rfl⟩ := Option.mem_map.mp hc'
        exact (hcache c hc).stageAll _
      have hrest := ih hcoherent (fun op' hop' => h op' (.tail _ hop'))
      rw [hnext, Option.isSome_map] at hrest
      rw [hnext]
      exact hrest.map _

end Body

namespace Operation

def repeated? : Operation → Option RepeatedMeasurement
  | measureRepeatedly m => some m
  | _ => none

def single? : Operation → Option Measurement
  | measure m => some m
  | _ => none

/-- The value that an operation gives to a variable; one name is never given a value. -/
def recorded? : Operation → Option (String × Float)
  | input name value => if name == Metadata.reservedName then none else some (name, value)
  | _ => none

end Operation

namespace Metadata

theorem collected_foldl {α : Type} (field : Metadata → List α) {part : Operation → Option α}
    (hempty : field .empty = [])
    (hrecord : ∀ m op, field (m.record op) = field m ++ (part op).toList) (ops : List Operation) :
    field (ops.foldl record .empty) = ops.filterMap part := by
  induction ops using List.reverseRecOn with
  | nil => exact hempty
  | append_singleton ops op ih =>
      rw [List.foldl_append, List.foldl_cons, List.foldl_nil, hrecord, ih, List.filterMap_append]
      cases hop : part op <;> simp [hop]

theorem repeated_record (m : Metadata) (op : Operation) :
    (m.record op).repeated = m.repeated ++ op.repeated?.toList := by
  cases op with
  | input name value =>
      obtain ⟨inputs, h⟩ := m.record_input name value
      rw [h]
      simp [Operation.repeated?]
  | _ => simp [record, Operation.repeated?]

theorem single_record (m : Metadata) (op : Operation) :
    (m.record op).single = m.single ++ op.single?.toList := by
  cases op with
  | input name value =>
      obtain ⟨inputs, h⟩ := m.record_input name value
      rw [h]
      simp [Operation.single?]
  | _ => simp [record, Operation.single?]

theorem inputs_foldl (ops : List Operation) :
    (ops.foldl record .empty).inputs = Table.ofList (ops.filterMap Operation.recorded?) := by
  have hrecord (m : Metadata) (op : Operation) :
      (m.record op).inputs = m.inputs.insertAll op.recorded?.toList := by
    cases op with
    | input name value =>
        unfold record Operation.recorded?
        dsimp only
        split <;> rfl
    | _ => rfl
  induction ops using List.reverseRecOn with
  | nil => rfl
  | append_singleton ops op ih =>
      have hpart : [op].filterMap Operation.recorded? = op.recorded?.toList := by
        cases hop : op.recorded? <;> simp [hop]
      rw [List.foldl_append, List.foldl_cons, List.foldl_nil, hrecord, ih, List.filterMap_append,
        hpart]
      exact List.foldl_append.symm

/-- The conflicts among operations, in the order in which they are looked for. -/
def conflicts (ops : List Operation) : List Conflict :=
  (if ops.any (fun op => op.repeated?.isSome) && ops.any (fun op => op.single?.isSome)
    then [.mixedMeasurements] else []) ++
  if ops.any (fun op => op.stateVectorReadout?.isSome) &&
      ops.any (fun op => op.densityMatrixReadout?.isSome)
    then [.stateRequests] else []

theorem isEmpty_filterMap {α : Type} (part : Operation → Option α) (ops : List Operation) :
    (ops.filterMap part).isEmpty = !ops.any (fun op => (part op).isSome) := by
  induction ops with
  | nil => rfl
  | cons op ops ih => cases hop : part op <;> simp [hop, ih]

theorem isSome_last_filterMap {α : Type} (part : Operation → Option α) (ops : List Operation) :
    (ops.filterMap part).getLast?.isSome = ops.any (fun op => (part op).isSome) := by
  rw [← Bool.not_not (b := ops.any _), ← isEmpty_filterMap]
  cases ops.filterMap part with
  | nil => rfl
  | cons a parts =>
      rw [List.getLast?_cons]
      rfl

theorem reports_validate (ops : List Operation) :
    Reports ((ops.foldl record .empty).validate false) (conflicts ops) := by
  have hrepeated := collected_foldl repeated rfl repeated_record ops
  have hsingle := collected_foldl single rfl single_record ops
  have hvector := (readout_foldl rfl rfl stateVectorReadout_record ops).2
  have hmatrix := (readout_foldl rfl rfl densityMatrixReadout_record ops).2
  unfold validate conflicts
  rw [hrepeated, hsingle, hvector, hmatrix, isEmpty_filterMap, isEmpty_filterMap, Bool.not_not,
    Bool.not_not, isSome_last_filterMap, isSome_last_filterMap]
  split
  · exact rfl
  · split
    · exact .error _
    · exact .ok ()

end Metadata

namespace Backend

/-- The calculator of a circuit: the values that it gives to variables, overridden by the
substitutions. -/
def valuesOf (o : Options) (ops : List Operation) : Calculator :=
  .ofList (ops.filterMap Operation.recorded? ++ o.substitutions)

theorem calculator_foldl (o : Options) (ops : List Operation) :
    calculator o (ops.foldl Metadata.record .empty) = valuesOf o ops := by
  unfold calculator valuesOf Calculator.setAll Calculator.ofList
  rw [Metadata.inputs_foldl]
  exact congrArg Calculator.mk List.foldl_append.symm

/-- All problems of a circuit: its conflicts, and then those of its operations in order. -/
def problems (o : Options) (ops : List Operation) (symbolic : Bool) : List Error :=
  (Metadata.conflicts ops).map (fun c => .classified (.conflict c)) ++
    (ops.flatMap (fun op => op.problems o.names (valuesOf o ops) symbolic)).map .line

/-- What is not written is a setting of the simulator or a request to it. -/
theorem cases_of_not_written {op : Operation} (h : Classified.isWritten op = false) :
    (∃ s, op = .setShots s) ∨ (∃ readout, op = .getStateVector readout) ∨
      (∃ readout, op = .getDensityMatrix readout) ∨
        ∃ amplitudes, op = .setStateVector amplitudes := by
  cases op with
  | setShots s => exact .inl ⟨s, rfl⟩
  | getStateVector readout => exact .inr (.inl ⟨readout, rfl⟩)
  | getDensityMatrix readout => exact .inr (.inr (.inl ⟨readout, rfl⟩))
  | setStateVector amplitudes => exact .inr (.inr (.inr ⟨amplitudes, rfl⟩))
  | _ => cases h

theorem problems_of_not_written {op : Operation} (h : Classified.isWritten op = false)
    (names : Option QubitNames) (values : Calculator) (symbolic : Bool) :
    op.problems names values symbolic = [] := by
  obtain ⟨_, rfl⟩ | ⟨_, rfl⟩ | ⟨_, rfl⟩ | ⟨_, rfl⟩ := cases_of_not_written h <;> rfl

theorem reports_classified {ops : List Operation}
    (h : ∀ op ∈ ops, ∀ q ∈ op.qubits, Number.isNatural q = true) :
    Reports (Classified.ofOperations none ops false)
      ((Metadata.conflicts ops).map .conflict) := by
  unfold Classified.ofOperations
  rw [Classified.run_eq_ok (fun op hop _ => h op hop)]
  exact ((Metadata.reports_validate ops).mapError _).map _

theorem reports_body (o : Options) (ops : List Operation) (symbolic : Bool) :
    Reports (Body.ofOperations (directOptions (valuesOf o ops) ⟨o.register, o.names⟩)
        (if symbolic then some Cache.empty else none) (ops.filter Classified.isWritten))
      ((ops.filter Classified.isWritten).flatMap
        (fun op => op.problems o.names (valuesOf o ops) symbolic)) := by
  have hwritten : ∀ op ∈ ops.filter Classified.isWritten, Classified.isWritten op = true :=
    fun op hop => (List.mem_filter.mp hop).2
  cases symbolic with
  | false => exact Body.reports_ofOperations (fun c hc => by cases hc) hwritten
  | true =>
      refine Body.reports_ofOperations (fun c hc => ?_) hwritten
      cases hc
      exact Cache.coherent_empty

/-- Compiling reports the first problem, if there is one. -/
theorem reports_compile (o : Options) {ops : List Operation}
    (h : ∀ op ∈ ops, ∀ q ∈ op.qubits, Number.isNatural q = true) (symbolic : Bool) :
    Reports (compile o ops symbolic) (problems o ops symbolic) := by
  have hwritten : (ops.filter Classified.isWritten).flatMap
      (fun op => op.problems o.names (valuesOf o ops) symbolic) =
      ops.flatMap (fun op => op.problems o.names (valuesOf o ops) symbolic) :=
    flatMap_filter_of_nil (fun op hop => problems_of_not_written hop _ _ _)
  have hconflicts := (reports_classified h).mapError Error.classified
  rw [List.map_map] at hconflicts
  unfold problems
  rw [← hwritten]
  refine hconflicts.bind (fun c hc => ?_)
  obtain ⟨rfl, -⟩ := Classified.ofOperations_ok (ok_of_mapError_ok hc)
  change Reports ((Body.ofOperations
    (directOptions (calculator o (ops.foldl Metadata.record .empty)) ⟨o.register, o.names⟩) _
    (ops.filter Classified.isWritten)).mapError Error.line >>= _) _
  rw [calculator_foldl]
  exact ((reports_body o ops symbolic).mapError Error.line).map _

/-- What a circuit needs to have a program. -/
structure Translatable (o : Options) (ops : List Operation) (symbolic : Bool) : Prop where
  measurements : ¬ ((∃ m, .measureRepeatedly m ∈ ops) ∧ ∃ m, .measure m ∈ ops)
  requests : ¬ ((∃ readout, .getStateVector readout ∈ ops) ∧
    ∃ readout, .getDensityMatrix readout ∈ ops)
  known : ∀ name qubits, .foreign name qubits ∉ ops
  values : ∀ op ∈ ops, ∀ p ∈ op.evaluated symbolic, ∃ x, (valuesOf o ops).evaluate p = .ok x
  named : ∀ names, o.names = some names → ∀ op ∈ ops, ∀ q ∈ op.qubits,
    names.contains ⟨q⟩ = true

theorem any_isSome_iff {α : Type} (part : Operation → Option α) (make : α → Operation)
    (h : ∀ op a, part op = some a ↔ op = make a) (ops : List Operation) :
    ops.any (fun op => (part op).isSome) = true ↔ ∃ a, make a ∈ ops := by
  rw [List.any_eq_true]
  constructor
  · rintro ⟨op, hop, hpart⟩
    obtain ⟨a, ha⟩ := Option.isSome_iff_exists.mp hpart
    exact ⟨a, (h op a).mp ha ▸ hop⟩
  · rintro ⟨a, ha⟩
    exact ⟨make a, ha, Option.isSome_iff_exists.mpr ⟨a, (h _ a).mpr rfl⟩⟩

theorem conflicts_eq_nil_iff (ops : List Operation) :
    Metadata.conflicts ops = [] ↔
      ¬ ((∃ m, .measureRepeatedly m ∈ ops) ∧ ∃ m, .measure m ∈ ops) ∧
      ¬ ((∃ readout, .getStateVector readout ∈ ops) ∧
        ∃ readout, .getDensityMatrix readout ∈ ops) := by
  have hif (b : Bool) (c : Metadata.Conflict) : (if b then [c] else []) = [] ↔ ¬ b = true := by
    cases b <;> simp
  unfold Metadata.conflicts
  rw [List.append_eq_nil_iff, hif, hif, Bool.and_eq_true, Bool.and_eq_true,
    any_isSome_iff Operation.repeated? .measureRepeatedly
      (fun op m => by cases op <;> simp [Operation.repeated?]),
    any_isSome_iff Operation.single? .measure
      (fun op m => by cases op <;> simp [Operation.single?]),
    any_isSome_iff Operation.stateVectorReadout? .getStateVector
      (fun op m => by cases op <;> simp [Operation.stateVectorReadout?]),
    any_isSome_iff Operation.densityMatrixReadout? .getDensityMatrix
      (fun op m => by cases op <;> simp [Operation.densityMatrixReadout?])]

theorem problems_eq_nil_iff {o : Options} {ops : List Operation} {symbolic : Bool} :
    problems o ops symbolic = [] ↔ Translatable o ops symbolic := by
  unfold problems
  rw [List.append_eq_nil_iff, List.map_eq_nil_iff, List.map_eq_nil_iff, conflicts_eq_nil_iff,
    List.flatMap_eq_nil_iff]
  constructor
  · rintro ⟨⟨hmeasurements, hrequests⟩, h⟩
    refine ⟨hmeasurements, hrequests, ?_, ?_, ?_⟩
    · intro name qubits hop
      exact absurd (Operation.problems_eq_nil_iff.mp (h _ hop)).1 (by simp [Operation.refusals])
    · exact fun op hop => (Operation.problems_eq_nil_iff.mp (h op hop)).2.1
    · exact fun names hnames op hop q hq =>
        (Operation.problems_eq_nil_iff.mp (h op hop)).2.2 q hq names hnames
  · intro h
    refine ⟨⟨h.measurements, h.requests⟩, fun op hop => Operation.problems_eq_nil_iff.mpr ?_⟩
    refine ⟨?_, h.values op hop, fun q hq names hnames => h.named names hnames op hop q hq⟩
    cases op with
    | foreign name qubits => exact absurd hop (h.known name qubits)
    | _ => rfl

/-- A circuit has a program exactly if it needs nothing more, and what is reported otherwise is the
first of its problems. -/
theorem compile_ok_iff_translatable (o : Options) (c : Circuit) (hc : c.Valid) (symbolic : Bool) :
    ((∃ output, compile o c.operations symbolic = .ok output) ↔
        Translatable o c.operations symbolic) ∧
      ∀ e, compile o c.operations symbolic = .error e ↔
        (problems o c.operations symbolic).head? = some e := by
  have hreports := reports_compile o hc symbolic
  exact ⟨hreports.exists_ok_iff.trans problems_eq_nil_iff, fun e => hreports.eq_error_iff⟩

/-- A rotation by an angle without a value on a qubit without a name. -/
def unnamedRotation : List Operation :=
  [.input "t" 1, .gate (.fixed .hadamard 0), .gate (.rotation .x 1 (.expression "t*u"))]

/-- The angle is reported first; once it is deferred, the qubit is; once that has a name, nothing
is. -/
theorem compile_ok_iff_translatable_unnamedRotation :
    compile ⟨"q", none, some (.ofList [(0, "a")]), []⟩ unnamedRotation false =
        .error (.line (.parameter ⟨"t*u", .expr (.unset "u")⟩)) ∧
      compile ⟨"q", none, some (.ofList [(0, "a")]), []⟩ unnamedRotation true =
        .error (.line (.unnamed ⟨1⟩)) ∧
      ∃ output, compile ⟨"q", none, some (.ofList [(0, "a"), (1, "b")]), []⟩ unnamedRotation true =
        .ok output := by
  have hvalid : Circuit.Valid ⟨none, unnamedRotation⟩ := by
    unfold Circuit.Valid
    decide +kernel
  refine ⟨?_, ?_, ?_⟩
  · exact ((compile_ok_iff_translatable _ _ hvalid false).2 _).mpr (by decide +kernel)
  · exact ((compile_ok_iff_translatable _ _ hvalid true).2 _).mpr (by decide +kernel)
  · have hdeferred : ∀ op ∈ unnamedRotation, op.evaluated true = [] := by decide +kernel
    refine (compile_ok_iff_translatable _ _ hvalid true).1.mpr ⟨?_, ?_, ?_, ?_, ?_⟩
    · simp [unnamedRotation]
    · simp [unnamedRotation]
    · simp [unnamedRotation]
    · intro op hop p hp
      rw [hdeferred op hop] at hp
      cases hp
    · intro names hnames
      cases hnames
      decide +kernel

end Backend

end OpenQasm

import OpenQasm.Proofs.Backend.Problems
import OpenQasm.Proofs.Simulator.Requests

/-!
# Classification, read off the operations

Classification is one pass that fills a record. What it returns and when it refuses a circuit can be
read off the list of operations: each part of the record is the list of the operations of one kind,
or the last one of a kind, or whether there is one. What is left of a classified circuit can be
classified again. This changes neither the circuit nor its program, and keeps the measurements and
the inputs, but not the settings of shots, since these are not left in the circuit.
-/
namespace OpenQasm

namespace Operation

def setting? : Operation → Option ShotSetting
  | setShots s => some s
  | _ => none

def amplitudes? : Operation → Option (List Complex)
  | setStateVector amplitudes => some amplitudes
  | _ => none

def simulatorTypes : List String :=
  ["PragmaSetStateVector", "PragmaSetNumberOfMeasurements", "PragmaGetStateVector",
    "PragmaGetDensityMatrix"]

end Operation

namespace Metadata

open Operation (setting?)

theorem settings_record (m : Metadata) (op : Operation) :
    (m.record op).settings = m.settings ++ op.setting?.toList := by
  cases op with
  | input name value =>
      obtain ⟨inputs, h⟩ := m.record_input name value
      rw [h]
      simp [setting?]
  | _ => simp [record, setting?]

/-- When a conflict is reported. The checks are made in the order of the cases. -/
def Conflict.Arises (ops : List Operation) (requireOutput : Bool) : Conflict → Prop
  | mixedMeasurements => (∃ m, .measureRepeatedly m ∈ ops) ∧ ∃ m, .measure m ∈ ops
  | stateRequests =>
      ¬((∃ m, .measureRepeatedly m ∈ ops) ∧ ∃ m, .measure m ∈ ops) ∧
        (∃ readout, .getStateVector readout ∈ ops) ∧ ∃ readout, .getDensityMatrix readout ∈ ops
  | noOutput =>
      requireOutput = true ∧
        ¬((∃ m, .measureRepeatedly m ∈ ops) ∨ (∃ m, .measure m ∈ ops) ∨
          (∃ readout, .getStateVector readout ∈ ops) ∨ ∃ readout, .getDensityMatrix readout ∈ ops)

variable (ops : List Operation)

theorem measuresRepeatedly_iff :
    (!(ops.foldl record .empty).repeated.isEmpty) = true ↔ ∃ m, .measureRepeatedly m ∈ ops := by
  rw [collected_foldl repeated rfl repeated_record, isEmpty_filterMap, Bool.not_not,
    Backend.any_isSome_iff Operation.repeated? .measureRepeatedly
      (fun op m => by cases op <;> simp [Operation.repeated?])]

theorem measuresSingly_iff :
    (!(ops.foldl record .empty).single.isEmpty) = true ↔ ∃ m, .measure m ∈ ops := by
  rw [collected_foldl single rfl single_record, isEmpty_filterMap, Bool.not_not,
    Backend.any_isSome_iff Operation.single? .measure
      (fun op m => by cases op <;> simp [Operation.single?])]

theorem wantsStateVector_iff :
    (ops.foldl record .empty).wantsStateVector = true ↔
      ∃ readout, .getStateVector readout ∈ ops := by
  rw [(readout_foldl rfl rfl stateVectorReadout_record ops).2, isSome_last_filterMap,
    Backend.any_isSome_iff Operation.stateVectorReadout? .getStateVector
      (fun op m => by cases op <;> simp [Operation.stateVectorReadout?])]

theorem wantsDensityMatrix_iff :
    (ops.foldl record .empty).wantsDensityMatrix = true ↔
      ∃ readout, .getDensityMatrix readout ∈ ops := by
  rw [(readout_foldl rfl rfl densityMatrixReadout_record ops).2, isSome_last_filterMap,
    Backend.any_isSome_iff Operation.densityMatrixReadout? .getDensityMatrix
      (fun op m => by cases op <;> simp [Operation.densityMatrixReadout?])]

theorem validate_eq_error_iff (requireOutput : Bool) (conflict : Conflict) :
    (ops.foldl record .empty).validate requireOutput = .error conflict ↔
      conflict.Arises ops requireOutput := by
  unfold validate isMeasured
  -- both sides are decided by the same four facts about the record
  cases conflict
  all_goals
    simp only [Conflict.Arises, ← measuresRepeatedly_iff, ← measuresSingly_iff,
      ← wantsStateVector_iff, ← wantsDensityMatrix_iff]
    split_ifs <;> simp_all

end Metadata

namespace Classified

open Operation (amplitudes? setting? simulatorTypes)

theorem isWritten_eq (op : Operation) :
    isWritten op = decide (op.typeName ∉ simulatorTypes) := by
  cases op with
  | gate g => cases g with
    | rotation axis _ _ => cases axis <;> rfl
    | fixed gate _ => cases gate <;> rfl
    | pair gate _ _ => cases gate <;> rfl
  | define d =>
      obtain ⟨kind, _, _, _⟩ := d
      cases kind <;> rfl
  | _ => rfl

theorem foldl_nextState (ops : List Operation) :
    ops.foldl nextState none = (ops.filterMap amplitudes?).getLast? := by
  induction ops using List.reverseRecOn with
  | nil => rfl
  | append_singleton ops op ih =>
      rw [List.foldl_append, List.foldl_cons, List.foldl_nil, ih, List.filterMap_append]
      cases op <;> simp [nextState, amplitudes?]

/-- What the classification of operations consists of. -/
structure Describes (name : Option String) (ops : List Operation) (c : Classified) : Prop where
  circuit : c.circuit = ⟨name, ops.filter (fun op => op.typeName ∉ simulatorTypes)⟩
  repeated : c.metadata.repeated = ops.filterMap Operation.repeated?
  single : c.metadata.single = ops.filterMap Operation.single?
  settings : c.metadata.settings = ops.filterMap setting?
  stateVector : c.metadata.wantsStateVector = true ↔ ∃ readout, .getStateVector readout ∈ ops
  stateVectorReadout : c.metadata.stateVectorReadout =
    (ops.filterMap Operation.stateVectorReadout?).getLast?
  densityMatrix : c.metadata.wantsDensityMatrix = true ↔
    ∃ readout, .getDensityMatrix readout ∈ ops
  densityMatrixReadout : c.metadata.densityMatrixReadout =
    (ops.filterMap Operation.densityMatrixReadout?).getLast?
  inputs : c.metadata.inputs = Table.ofList (ops.filterMap Operation.recorded?)
  initialState : c.initialState = (ops.filterMap amplitudes?).getLast?

theorem describes_after (name : Option String) (ops : List Operation) :
    (after ⟨.empty name, .empty, none⟩ ops).Describes name ops where
  circuit := by
    simp only [after, ← isWritten_eq]
    rfl
  repeated := Metadata.collected_foldl Metadata.repeated rfl Metadata.repeated_record ops
  single := Metadata.collected_foldl Metadata.single rfl Metadata.single_record ops
  settings := Metadata.collected_foldl Metadata.settings rfl Metadata.settings_record ops
  stateVector := Metadata.wantsStateVector_iff ops
  stateVectorReadout := (Metadata.readout_foldl rfl rfl Metadata.stateVectorReadout_record ops).1
  densityMatrix := Metadata.wantsDensityMatrix_iff ops
  densityMatrixReadout :=
    (Metadata.readout_foldl rfl rfl Metadata.densityMatrixReadout_record ops).1
  inputs := Metadata.inputs_foldl ops
  initialState := foldl_nextState ops

theorem ofOperations_of_valid (name : Option String) {ops : List Operation}
    (h : ∀ op ∈ ops, ∀ q ∈ op.qubits, Number.isNatural q = true) (requireOutput : Bool) :
    ofOperations name ops requireOutput =
      (((ops.foldl Metadata.record .empty).validate requireOutput).mapError .conflict >>=
        fun _ => .ok (after ⟨.empty name, .empty, none⟩ ops)) := by
  unfold ofOperations
  rw [run_eq_ok (fun op hop _ => h op hop)]
  rfl

theorem ofOperations_eq_conflict_iff (name : Option String) {ops : List Operation}
    (h : ∀ op ∈ ops, ∀ q ∈ op.qubits, Number.isNatural q = true) (requireOutput : Bool)
    (conflict : Metadata.Conflict) :
    ofOperations name ops requireOutput = .error (.conflict conflict) ↔
      conflict.Arises ops requireOutput := by
  rw [ofOperations_of_valid name h, ← Metadata.validate_eq_error_iff]
  cases (ops.foldl Metadata.record .empty).validate requireOutput with
  | ok u => exact iff_of_false (by rintro ⟨⟩) (by rintro ⟨⟩)
  | error e =>
      constructor
      · rintro ⟨⟩
        rfl
      · rintro ⟨⟩
        rfl

theorem exists_ofOperations (name : Option String) {ops : List Operation}
    (h : ∀ op ∈ ops, ∀ q ∈ op.qubits, Number.isNatural q = true) {requireOutput : Bool}
    (hconflict : ∀ conflict : Metadata.Conflict, ¬conflict.Arises ops requireOutput) :
    ∃ c, ofOperations name ops requireOutput = .ok c := by
  rw [ofOperations_of_valid name h]
  cases hvalidate : (ops.foldl Metadata.record .empty).validate requireOutput with
  | ok u => exact ⟨_, rfl⟩
  | error e => exact absurd ((Metadata.validate_eq_error_iff ops _ e).mp hvalidate) (hconflict e)

theorem ofOperations_rename {name : Option String} {ops : List Operation} {requireOutput : Bool}
    {c : Classified} (h : ofOperations name ops requireOutput = .ok c) (name' : Option String) :
    ofOperations name' ops requireOutput =
      .ok { c with circuit := ⟨name', c.circuit.operations⟩ } := by
  obtain ⟨rfl, hvalid⟩ := ofOperations_ok h
  exact ofOperations_eq_ok (run_eq_ok (isNatural_of_run (run_of_ofOperations h))) hvalid

/-- A classification of what another one has left: of what is said to the simulator it keeps the
measurements and the inputs. -/
structure Repeats (c d : Classified) : Prop where
  circuit : d.circuit = c.circuit
  repeated : d.metadata.repeated = c.metadata.repeated
  single : d.metadata.single = c.metadata.single
  inputs : d.metadata.inputs = c.metadata.inputs
  settings : d.metadata.settings = []

/-- The classification of operations with natural qubits. It fails with a conflict exactly if this
conflict is the first to arise, and succeeds if none arises. What it returns can be read off the
operations. If the circuit that is left is classified again, it is left unchanged, with the same
measurements and inputs and no settings of shots; and its program is that of the operations. -/
theorem ofOperations_spec (name : Option String) {ops : List Operation}
    (h : ∀ op ∈ ops, ∀ q ∈ op.qubits, Number.isNatural q = true) (requireOutput : Bool) :
    (∀ conflict, ofOperations name ops requireOutput = .error (.conflict conflict) ↔
        conflict.Arises ops requireOutput) ∧
      ((∀ conflict : Metadata.Conflict, ¬conflict.Arises ops requireOutput) →
        ∃ c, ofOperations name ops requireOutput = .ok c) ∧
      ∀ c, ofOperations name ops requireOutput = .ok c →
        c.Describes name ops ∧
          (∃ d, ofOperations c.circuit.name c.circuit.operations false = .ok d ∧ c.Repeats d) ∧
          ∀ (o : Backend.Options) (symbolic : Bool),
            Backend.compile o c.circuit.operations symbolic = Backend.compile o ops symbolic := by
  refine ⟨ofOperations_eq_conflict_iff name h requireOutput, exists_ofOperations name h, ?_⟩
  intro c hc
  have hdescribes : c.Describes name ops := by
    rw [(ofOperations_ok hc).1]
    exact describes_after name ops
  refine ⟨hdescribes, ?_, ?_⟩
  · obtain ⟨state, hwritten⟩ := ofOperations_written hc
    rw [hdescribes.circuit] at hwritten ⊢
    exact ⟨_, hwritten, by rw [hdescribes.circuit], rfl, rfl, rfl, rfl⟩
  · intro o symbolic
    have hunnamed := Backend.compile_written o symbolic (ofOperations_rename hc none)
    exact hunnamed

/-- A circuit that sets its shots between two requests for the state and a measurement. -/
def requested : List Operation :=
  [.setStateVector [⟨1, 0⟩], .getStateVector "first", .input "t" 1,
    .gate (.rotation .x 0 (.expression "t")), .setShots ⟨"ro", 10⟩, .getStateVector "last",
    .measure ⟨0, "ro", 0⟩]

theorem ofOperations_spec_requested :
    (∀ op ∈ requested, ∀ q ∈ op.qubits, Number.isNatural q = true) ∧
      ∃ c, ofOperations (some "name") requested true = .ok c ∧
        c.Describes (some "name") requested ∧
        (∃ d, ofOperations c.circuit.name c.circuit.operations false = .ok d ∧ c.Repeats d) ∧
        ∀ (o : Backend.Options) (symbolic : Bool),
          Backend.compile o c.circuit.operations symbolic =
            Backend.compile o requested symbolic := by
  have hvalid : ∀ op ∈ requested, ∀ q ∈ op.qubits, Number.isNatural q = true := by
    decide +kernel
  obtain ⟨-, hsome, hall⟩ := ofOperations_spec (some "name") hvalid true
  obtain ⟨c, hc⟩ := hsome (by
    intro conflict
    cases conflict <;> simp [Metadata.Conflict.Arises, requested])
  exact ⟨hvalid, c, hc, hall c hc⟩

/-- A setting of shots is in the first classification and not in the second. -/
theorem ofOperations_shots :
    ∃ c d, ofOperations none [.setShots ⟨"ro", 10⟩, .measure ⟨0, "ro", 0⟩] true = .ok c ∧
      ofOperations c.circuit.name c.circuit.operations false = .ok d ∧ d.circuit = c.circuit ∧
      c.metadata.settings = [⟨"ro", 10⟩] ∧ d.metadata.settings = [] :=
  ⟨⟨⟨none, [.measure ⟨0, "ro", 0⟩]⟩,
      { Metadata.empty with single := [⟨0, "ro", 0⟩], settings := [⟨"ro", 10⟩] }, none⟩,
    ⟨⟨none, [.measure ⟨0, "ro", 0⟩]⟩, { Metadata.empty with single := [⟨0, "ro", 0⟩] }, none⟩,
    by decide +kernel⟩

end Classified

end OpenQasm

import OpenQasm.Proofs.Backend.Pipeline
import OpenQasm.Proofs.Simulator.Outcomes
import OpenQasm.Simulator

/-!
# What a run reads out

The program that a simulator gets and the cuts in its answer come from the same definitions: the
written program declares every register once, in order, and these declarations give the lengths by
which outcomes are cut. So a simulator that answers with one word for each declared register has
its words read into the registers they belong to.
-/
namespace OpenQasm

namespace Backend.Output

def cregs (p : Output) : List (String × Float) :=
  (p.body.declarations ++ p.body.lines).filterMap Line.register?

end Backend.Output

namespace Backend

/-- A program is put together from the lines of its body, and declares what its operations
define. -/
theorem compile_ok {o : Options} {ops : List Operation} {symbolic : Bool} {program : Output}
    (h : compile o ops symbolic = .ok program) :
    program.text = Program.compose o.register program.size
        (program.body.declarations.map Line.terminated)
        (program.body.lines.map Line.terminated) ∧
      program.body.declarations = (Declaration.collect ops).map Declaration.line ∧
      ∀ l ∈ program.body.lines, l.register? = none := by
  obtain ⟨c, hclassified, h⟩ := exists_of_bind_ok h
  obtain ⟨body, hbody, h⟩ := exists_of_bind_ok h
  cases h
  have hbody := ok_of_mapError_ok hbody
  refine ⟨rfl, ?_, Body.register?_lines hbody⟩
  have hdefinitions := Classified.definitions_eq (ok_of_mapError_ok hclassified)
  unfold Circuit.definitions at hdefinitions
  rw [Body.declarations_eq hbody, hdefinitions]

theorem cregs_compile {o : Options} {ops : List Operation} {symbolic : Bool} {program : Output}
    (h : compile o ops symbolic = .ok program) :
    program.cregs = (Declaration.collect ops).map (fun d => (d.name, d.length)) := by
  obtain ⟨-, hdeclarations, hlines⟩ := compile_ok h
  have hdeclared : Line.register? ∘ Declaration.line =
      some ∘ (fun d : Declaration => (d.name, d.length)) := rfl
  unfold Output.cregs
  rw [List.filterMap_append, List.filterMap_eq_nil_iff.mpr hlines, List.append_nil, hdeclarations,
    List.filterMap_map, hdeclared, List.filterMap_eq_map]

theorem text_compile {o : Options} {ops : List Operation} {symbolic : Bool} {program : Output}
    (h : compile o ops symbolic = .ok program) :
    program.text = Program.compose o.register program.size
      (program.cregs.map (fun r => (Line.declare r.1 r.2).terminated))
      (program.body.lines.map Line.terminated) := by
  obtain ⟨htext, hdeclarations, -⟩ := compile_ok h
  rw [htext, hdeclarations, cregs_compile h, List.map_map, List.map_map]
  rfl

end Backend

def Operation.stateVectorReadout? : Operation → Option String
  | getStateVector readout => some readout
  | _ => none

def Operation.densityMatrixReadout? : Operation → Option String
  | getDensityMatrix readout => some readout
  | _ => none

namespace Metadata

theorem record_input (m : Metadata) (name : String) (value : Float) :
    ∃ inputs, m.record (.input name value) = { m with inputs := inputs } := by
  change ∃ inputs, (if name == reservedName then m else _) = _
  split
  · exact ⟨m.inputs, rfl⟩
  · exact ⟨_, rfl⟩

theorem stateVectorReadout_record (m : Metadata) (op : Operation) :
    (m.record op).stateVectorReadout = op.stateVectorReadout?.or m.stateVectorReadout ∧
      (m.record op).wantsStateVector = (op.stateVectorReadout?.isSome || m.wantsStateVector) := by
  cases op with
  | input name value =>
      obtain ⟨inputs, h⟩ := m.record_input name value
      rw [h]
      exact ⟨rfl, rfl⟩
  | _ => exact ⟨rfl, rfl⟩

theorem densityMatrixReadout_record (m : Metadata) (op : Operation) :
    (m.record op).densityMatrixReadout = op.densityMatrixReadout?.or m.densityMatrixReadout ∧
      (m.record op).wantsDensityMatrix =
        (op.densityMatrixReadout?.isSome || m.wantsDensityMatrix) := by
  cases op with
  | input name value =>
      obtain ⟨inputs, h⟩ := m.record_input name value
      rw [h]
      exact ⟨rfl, rfl⟩
  | _ => exact ⟨rfl, rfl⟩

/-- Of several requests for a state the last decides where it goes. -/
theorem readout_foldl {readout : Metadata → Option String} {wants : Metadata → Bool}
    {request : Operation → Option String} (hreadout : readout .empty = none)
    (hwants : wants .empty = false)
    (hrecord : ∀ m op, readout (m.record op) = (request op).or (readout m) ∧
      wants (m.record op) = ((request op).isSome || wants m)) (ops : List Operation) :
    readout (ops.foldl record .empty) = (ops.filterMap request).getLast? ∧
      wants (ops.foldl record .empty) = (ops.filterMap request).getLast?.isSome := by
  induction ops using List.reverseRecOn with
  | nil => exact ⟨hreadout, hwants⟩
  | append_singleton ops op ih =>
      obtain ⟨hr, hw⟩ := hrecord (ops.foldl record .empty) op
      rw [List.foldl_append, List.foldl_cons, List.foldl_nil, hr, hw, ih.1, ih.2,
        List.filterMap_append]
      cases hop : request op with
      | none => simp [hop]
      | some name => simp [hop]

end Metadata

namespace Simulator

/-- The register for the state vector: that of the last request. -/
def stateVectorReadout? (ops : List Operation) : Option String :=
  (ops.filterMap Operation.stateVectorReadout?).getLast?

/-- The register for the density matrix: that of the last request. -/
def densityMatrixReadout? (ops : List Operation) : Option String :=
  (ops.filterMap Operation.densityMatrixReadout?).getLast?

/-- An answer reports shots: in its memory one by one, or else in its counts, with the entries in
their order and each shot as often as it was counted. -/
inductive Answer.Reports (registers : List (String × Float)) (a : Answer) :
    List Outcome.Shot → Prop
  | memory {shots : List Outcome.Shot} (hmemory : a.memory = some (shots.map Outcome.text))
      (hfits : ∀ shot ∈ shots, Outcome.Fits registers shot) : Reports registers a shots
  | counts {counts : Table String Float} {groups : List (Outcome.Shot × ℕ)}
      (hmemory : a.memory = .none) (hcounts : a.counts = some counts)
      (hgroups : List.Forall₂ Outcome.Counts counts.toList groups)
      (hfits : ∀ group ∈ groups, Outcome.Fits registers group.1) :
      Reports registers a (groups.flatMap (fun group => List.replicate group.2 group.1))

end Simulator

end OpenQasm

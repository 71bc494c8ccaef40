import OpenQasm.Proofs.Backend.History
import OpenQasm.Simulator

/-!
# What a simulator is asked for

A circuit is classified before it is translated, and translation classifies what is left of it once
more. What was left out says nothing about the program: the lines and the inputs of variables are
the same, so the request holds the program of the circuit itself. It is the program that every
backend with these options gives, whatever that backend has written before.
-/
namespace OpenQasm

namespace Metadata

/-- What the written operations alone say to the simulator. -/
def written (m : Metadata) : Metadata :=
  { m with
    settings := []
    wantsStateVector := false
    wantsDensityMatrix := false
    stateVectorReadout := none
    densityMatrixReadout := none }

theorem record_written {op : Operation} (h : Classified.isWritten op = true) (m : Metadata) :
    m.written.record op = (m.record op).written := by
  cases op with
  | input name value =>
      simp only [record]
      split <;> rfl
  | setShots _ => cases h
  | getStateVector _ => cases h
  | getDensityMatrix _ => cases h
  | setStateVector _ => cases h
  | _ => rfl

theorem written_record {op : Operation} (h : Classified.isWritten op = false) (m : Metadata) :
    (m.record op).written = m.written := by
  cases op with
  | setShots _ => rfl
  | getStateVector _ => rfl
  | getDensityMatrix _ => rfl
  | setStateVector _ => rfl
  | _ => cases h

theorem foldl_record_written (ops : List Operation) (m : Metadata) :
    (ops.filter Classified.isWritten).foldl record m.written = (ops.foldl record m).written := by
  induction ops generalizing m with
  | nil => rfl
  | cons op ops ih =>
      rw [List.foldl_cons, ← ih]
      cases h : Classified.isWritten op with
      | true => rw [List.filter_cons_of_pos h, List.foldl_cons, record_written h]
      | false => rw [List.filter_cons_of_neg (by simp [h]), written_record h]

theorem validate_relaxed {m : Metadata} {requireOutput : Bool}
    (h : m.validate requireOutput = .ok ()) :
    m.validate false = .ok () ∧ m.written.validate false = .ok () := by
  unfold validate at h
  split at h
  next => cases h
  next hmixed =>
    split at h
    next => cases h
    next hboth =>
      constructor
      · unfold validate
        rw [if_neg hmixed, if_neg hboth]
        rfl
      · unfold validate
        exact (if_neg hmixed).trans rfl

end Metadata

namespace Classified

theorem ofOperations_eq_ok {name : Option String} {ops : List Operation} {requireOutput : Bool}
    {c : Classified} (hrun : run ⟨.empty name, .empty, none⟩ ops = .ok c)
    (hvalid : c.metadata.validate requireOutput = .ok ()) :
    ofOperations name ops requireOutput = .ok c := by
  unfold ofOperations
  rw [hrun]
  change ((c.metadata.validate requireOutput).mapError Error.conflict >>= _) = _
  rw [hvalid]
  rfl

theorem run_of_ofOperations {name : Option String} {ops : List Operation} {requireOutput : Bool}
    {c : Classified} (h : ofOperations name ops requireOutput = .ok c) :
    run ⟨.empty name, .empty, none⟩ ops = .ok c := by
  obtain ⟨d, hrun, h⟩ := exists_of_bind_ok h
  obtain ⟨⟨⟩, -, h⟩ := exists_of_bind_ok h
  cases h
  exact ok_of_mapError_ok hrun

theorem ofOperations_relaxed {name : Option String} {ops : List Operation} {requireOutput : Bool}
    {c : Classified} (h : ofOperations name ops requireOutput = .ok c) :
    ofOperations name ops false = .ok c :=
  ofOperations_eq_ok (run_of_ofOperations h) (Metadata.validate_relaxed (ofOperations_ok h).2).1

/-- Classifying what is left of a classified circuit leaves all of it. -/
theorem ofOperations_written {name : Option String} {ops : List Operation} {requireOutput : Bool}
    {c : Classified} (h : ofOperations name ops requireOutput = .ok c) :
    ∃ state, ofOperations name c.circuit.operations false =
      .ok ⟨c.circuit, c.metadata.written, state⟩ := by
  obtain ⟨hc, hvalid⟩ := ofOperations_ok h
  have hnatural := isNatural_of_run (run_of_ofOperations h)
  have hoperations : c.circuit.operations = ops.filter isWritten := by
    rw [hc]
    rfl
  have hrun : run ⟨.empty name, .empty, none⟩ (ops.filter isWritten) =
      .ok (after ⟨.empty name, .empty, none⟩ (ops.filter isWritten)) := by
    refine run_eq_ok ?_
    intro op hop
    exact hnatural op (List.mem_filter.mp hop).1
  have hcircuit : (after ⟨.empty name, .empty, none⟩ (ops.filter isWritten)).circuit =
      c.circuit := by
    rw [hc]
    unfold after
    rw [List.filter_filter]
    simp
  have hmetadata : (after ⟨.empty name, .empty, none⟩ (ops.filter isWritten)).metadata =
      c.metadata.written := by
    rw [hc]
    exact Metadata.foldl_record_written ops .empty
  refine ⟨(after ⟨.empty name, .empty, none⟩ (ops.filter isWritten)).initialState, ?_⟩
  rw [hoperations, ← hcircuit, ← hmetadata]
  refine ofOperations_eq_ok hrun ?_
  rw [hmetadata]
  exact (Metadata.validate_relaxed hvalid).2

end Classified

namespace Backend

theorem compile_of_classified (o : Options) {ops : List Operation} (symbolic : Bool)
    {c : Classified} (h : Classified.ofOperations none ops false = .ok c) :
    compile o ops symbolic = (do
      let body ← (Body.ofOperations
        ⟨⟨o.register, o.names⟩, some (calculator o c.metadata).evaluate, fun _ => false⟩
        (if symbolic then some Placeholder.Cache.empty else none) c.circuit.operations).mapError
          Error.line
      return ⟨Program.compose o.register (size o c.circuit)
        (body.declarations.map Line.terminated) (body.lines.map Line.terminated),
        size o c.circuit, body⟩) := by
  unfold compile
  rw [h]
  rfl

/-- What classification leaves out makes no difference to the program. -/
theorem compile_written (o : Options) {ops : List Operation} (symbolic : Bool)
    {requireOutput : Bool} {c : Classified}
    (h : Classified.ofOperations none ops requireOutput = .ok c) :
    compile o c.circuit.operations symbolic = compile o ops symbolic := by
  obtain ⟨state, hwritten⟩ := Classified.ofOperations_written h
  rw [compile_of_classified o symbolic hwritten,
    compile_of_classified o symbolic (Classified.ofOperations_relaxed h)]
  rfl

theorem run_direct {o : Options} {b : Backend} (hb : b.options = o) (ops : List Operation) :
    b.run ops false = (compile o ops false, b) := by
  have hnot : ¬Stores b.options ⟨ops, false⟩ := fun h => by cases h.1
  have hstate : (b.run ops false).2 = b := run_of_not_stores hnot
  rw [← hb, ← run_fst]
  exact Prod.ext rfl hstate

end Backend

namespace Simulator

/-- The request for a circuit, of which the classification is given: its program is the one that
any backend with these options writes, whatever it holds. -/
structure Asks (o : Options) (ops : List Operation) (c : Classified) (request : Request) :
    Prop where
  classified : Classified.ofOperations none ops true = .ok c
  program : ∃ output : Backend.Output, request.program = output.text ∧
    ∀ b : Backend, b.options = o.backend → b.run ops false = (.ok output, b)
  shots : request.shots = c.metadata.shots
  initialState : request.initialState = c.initialState

/-- Why there is no request for a circuit: it is not valid, or no backend with these options can
write its program. -/
inductive Refuses (o : Options) (ops : List Operation) : Error → Prop
  | classified {e : Classified.Error} (h : Classified.ofOperations none ops true = .error e) :
      Refuses o ops (.classified e)
  | backend {c : Classified} {e : Backend.Error}
      (hclassified : Classified.ofOperations none ops true = .ok c)
      (h : ∀ b : Backend, b.options = o.backend → b.run ops false = (.error e, b)) :
      Refuses o ops (.backend e)

theorem prepare_of_classified {o : Options} {ops : List Operation} {c : Classified}
    (h : Classified.ofOperations none ops true = .ok c) :
    prepare o ops = (do
      let output ← (Backend.compile o.backend ops false).mapError .backend
      return (c, ⟨output.text, c.metadata.shots, c.initialState⟩)) := by
  unfold prepare
  rw [h]
  change ((Backend.compile o.backend c.circuit.operations false).mapError Error.backend >>= _) = _
  rw [Backend.compile_written o.backend false h]

theorem asks_of_prepare {o : Options} {ops : List Operation} {c : Classified} {request : Request}
    (h : prepare o ops = .ok (c, request)) : Asks o ops c request := by
  obtain ⟨d, hclassified, -⟩ := exists_of_bind_ok h
  have hclassified := ok_of_mapError_ok hclassified
  rw [prepare_of_classified hclassified] at h
  obtain ⟨output, houtput, h⟩ := exists_of_bind_ok h
  cases h
  refine ⟨hclassified, ⟨output, rfl, ?_⟩, rfl, rfl⟩
  intro b hb
  rw [Backend.run_direct hb, ok_of_mapError_ok houtput]

theorem refuses_of_prepare {o : Options} {ops : List Operation} {e : Error}
    (h : prepare o ops = .error e) : Refuses o ops e := by
  cases hclassified : Classified.ofOperations none ops true with
  | error e' =>
      unfold prepare at h
      rw [hclassified] at h
      cases h
      exact .classified hclassified
  | ok c =>
      rw [prepare_of_classified hclassified] at h
      cases hcompile : Backend.compile o.backend ops false with
      | error e' =>
          rw [hcompile] at h
          cases h
          refine .backend hclassified ?_
          intro b hb
          rw [Backend.run_direct hb, hcompile]
      | ok output =>
          rw [hcompile] at h
          cases h

end Simulator

end OpenQasm

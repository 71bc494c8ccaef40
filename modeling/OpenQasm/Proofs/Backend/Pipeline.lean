import Mathlib
import OpenQasm.Backend
import OpenQasm.Proofs.Success

/-!
# From operations to the body of a program

Classification goes through the operations once. It keeps the written ones in order, folds all of
them into the metadata, and fails exactly if a written operation has a qubit that is no natural
number. The body of a program consists of the declarations and the lines of the operations, each in
order.
-/
namespace OpenQasm

namespace Circuit

/-- Every qubit that the operations act on is a natural number. -/
def Valid (c : Circuit) : Prop :=
  ∀ op ∈ c.operations, ∀ q ∈ op.qubits, Number.isNatural q = true

theorem add_eq_ok {c : Circuit} {op : Operation}
    (h : ∀ q ∈ op.qubits, Number.isNatural q = true) :
    c.add op = .ok { c with operations := c.operations ++ [op] } := by
  have hnone : op.qubits.find? (fun q => !Number.isNatural q) = none := by
    rw [List.find?_eq_none]
    intro q hq
    simp [h q hq]
  unfold add
  rw [hnone]

theorem add_ok {c d : Circuit} {op : Operation} (h : c.add op = .ok d) :
    (∀ q ∈ op.qubits, Number.isNatural q = true) ∧
      d = { c with operations := c.operations ++ [op] } := by
  unfold add at h
  split at h
  · cases h
  next hnone =>
    cases h
    rw [List.find?_eq_none] at hnone
    exact ⟨fun q hq => by simpa using hnone q hq, rfl⟩

theorem add_error {c : Circuit} {op : Operation} {e : Error} (h : c.add op = .error e) :
    ∃ q ∈ op.qubits, Number.isNatural q = false ∧ e = .invalidQubit q := by
  unfold add at h
  split at h
  next q hfind =>
    cases h
    exact ⟨q, List.mem_of_find?_eq_some hfind, by simpa using List.find?_some hfind, rfl⟩
  · cases h

theorem build_define {c : Circuit} {d : Declaration} (hlength : Number.isPositive d.length = true)
    (hnew : c.definitions.any (fun e => e.name == d.name) = false) :
    c.build (.define d) = .ok { c with operations := c.operations ++ [.define d] } := by
  have hcheck : c.check (.define d) = .ok () := by
    unfold check
    dsimp only
    rw [hlength, hnew]
    rfl
  unfold build
  rw [hcheck]
  rfl

end Circuit

namespace Classified

def nextState (state : Option (List Complex)) : Operation → Option (List Complex)
  | .setStateVector amplitudes => some amplitudes
  | _ => state

/-- What classification makes of operations that it accepts. -/
def after (c : Classified) (ops : List Operation) : Classified where
  circuit := ⟨c.circuit.name, c.circuit.operations ++ ops.filter isWritten⟩
  metadata := ops.foldl Metadata.record c.metadata
  initialState := ops.foldl nextState c.initialState

theorem step_eq_ok {c : Classified} {op : Operation}
    (h : isWritten op = true → ∀ q ∈ op.qubits, Number.isNatural q = true) :
    c.step op = .ok (c.after [op]) := by
  unfold step
  by_cases hw : isWritten op = true
  · rw [if_pos hw, Circuit.add_eq_ok (h hw)]
    cases op <;> simp_all [after, nextState, isWritten] <;> rfl
  · rw [if_neg hw]
    cases op <;> simp_all [after, nextState, isWritten]

theorem after_cons (c : Classified) (op : Operation) (ops : List Operation) :
    (c.after [op]).after ops = c.after (op :: ops) := by
  unfold after
  by_cases hw : isWritten op = true
  · simp [hw]
  · simp [hw]

theorem run_eq_ok {c : Classified} {ops : List Operation}
    (h : ∀ op ∈ ops, isWritten op = true → ∀ q ∈ op.qubits, Number.isNatural q = true) :
    c.run ops = .ok (c.after ops) := by
  induction ops generalizing c with
  | nil =>
      rw [run]
      simp [after]
  | cons op ops ih =>
      rw [run, step_eq_ok (h op (.head _))]
      change (c.after [op]).run ops = _
      rw [ih (fun op' hop' => h op' (.tail _ hop')), after_cons]

theorem isNatural_of_run {c d : Classified} {ops : List Operation} (h : c.run ops = .ok d) :
    ∀ op ∈ ops, isWritten op = true → ∀ q ∈ op.qubits, Number.isNatural q = true := by
  induction ops generalizing c with
  | nil => simp
  | cons op ops ih =>
      obtain ⟨c', hstep, hrun⟩ := exists_of_bind_ok h
      intro op' hop'
      rcases List.mem_cons.mp hop' with rfl | hop'
      · intro hw
        unfold step at hstep
        rw [if_pos hw] at hstep
        obtain ⟨circuit, hadd, -⟩ := exists_of_bind_ok hstep
        exact (Circuit.add_ok hadd).1
      · exact ih hrun op' hop'

theorem eq_after {c d : Classified} {ops : List Operation} (h : c.run ops = .ok d) :
    d = c.after ops := by
  rw [run_eq_ok (isNatural_of_run h)] at h
  cases h
  rfl

theorem ofOperations_ok {name : Option String} {ops : List Operation} {requireOutput : Bool}
    {c : Classified} (h : ofOperations name ops requireOutput = .ok c) :
    c = after ⟨.empty name, .empty, none⟩ ops ∧ c.metadata.validate requireOutput = .ok () := by
  obtain ⟨d, hrun, h⟩ := exists_of_bind_ok h
  obtain ⟨⟨⟩, hvalid, h⟩ := exists_of_bind_ok h
  cases h
  exact ⟨eq_after (ok_of_mapError_ok hrun), ok_of_mapError_ok hvalid⟩

/-- Definitions are written, so classification loses none. -/
theorem definitions_eq {name : Option String} {ops : List Operation} {requireOutput : Bool}
    {c : Classified} (h : ofOperations name ops requireOutput = .ok c) :
    c.circuit.definitions = Declaration.collect ops := by
  rw [(ofOperations_ok h).1]
  change (ops.filter isWritten).filterMap Operation.definition? = _
  unfold Declaration.collect
  rw [List.filterMap_filter]
  congr 1
  funext op
  cases op <;> rfl

end Classified

/-- The angle that can be deferred: that of a rotation, if it is symbolic. -/
def Operation.deferred? : Operation → Option Parameter
  | gate (.rotation _ _ theta) => if theta.isSymbolic then some theta else none
  | _ => none

theorem Operation.eq_rotation_of_deferred {op : Operation} {theta : Parameter}
    (h : op.deferred? = some theta) :
    ∃ axis qubit, op = .gate (.rotation axis qubit theta) ∧ theta.isSymbolic = true := by
  unfold deferred? at h
  split at h
  next axis qubit theta' =>
    split at h
    next htheta =>
      cases h
      exact ⟨axis, qubit, rfl, htheta⟩
    next => cases h
  next => cases h

namespace Declaration

def line (d : Declaration) : Line :=
  .declare d.name d.length

end Declaration

namespace Line

def register? : Line → Option (String × Float)
  | declare name length => some (name, length)
  | _ => none

theorem register?_ofGate {o : Options} {g : Gate} {l : Line} (h : ofGate o g = .ok l) :
    l.register? = none := by
  obtain ⟨parameters, -, h⟩ := exists_of_bind_ok h
  obtain ⟨operands, -, h⟩ := exists_of_bind_ok h
  cases h
  rfl

theorem ofColumn_ok {o : Options} {g : ColumnGate} {l : Line} (h : ofColumn o g = .ok l) :
    ∃ (angles : EulerAngles) (operand : String), o.qubit g.qubit = .ok operand ∧
      l = .apply "u3" [Number.literal angles.theta, Number.literal angles.phi,
        Number.literal angles.lambda] [operand] := by
  unfold ofColumn at h
  obtain ⟨alphaReal, -, h⟩ := exists_of_bind_ok h
  obtain ⟨alphaImag, -, h⟩ := exists_of_bind_ok h
  obtain ⟨betaReal, -, h⟩ := exists_of_bind_ok h
  obtain ⟨betaImag, -, h⟩ := exists_of_bind_ok h
  obtain ⟨operand, hoperand, h⟩ := exists_of_bind_ok h
  cases h
  exact ⟨_, operand, hoperand, rfl⟩

theorem eq_measure_of_ofRepeated {o : Options} {m : RepeatedMeasurement} {lines : List Line}
    (h : ofRepeated o m = .ok lines) :
    ∀ l ∈ lines, ∃ source target, l = .measure source target := by
  intro l hl
  unfold ofRepeated at h
  split at h
  · obtain ⟨entry, -, hline⟩ := exists_of_mem_mapM h hl
    obtain ⟨source, -, hline⟩ := exists_of_bind_ok hline
    cases hline
    exact ⟨source, _, rfl⟩
  · split at h
    · cases h
      obtain ⟨entry, -, rfl⟩ := List.mem_map.mp hl
      exact ⟨_, _, rfl⟩
    · cases h
      exact ⟨_, _, List.mem_singleton.mp hl⟩

theorem register?_ofOperation {o : Options} {op : Operation} {lines : List Line}
    (hdef : op.isDefinition = false) (h : ofOperation o op = .ok lines) :
    ∀ l ∈ lines, l.register? = none := by
  intro l hl
  cases op with
  | define d => cases hdef
  | gate g =>
      obtain ⟨line, hline, rfl⟩ := exists_of_map_ok h
      rw [List.mem_singleton.mp hl]
      exact register?_ofGate hline
  | column g =>
      obtain ⟨line, hline, rfl⟩ := exists_of_map_ok h
      rw [List.mem_singleton.mp hl]
      obtain ⟨angles, operand, -, rfl⟩ := ofColumn_ok hline
      rfl
  | measure m =>
      obtain ⟨line, hline, rfl⟩ := exists_of_map_ok h
      rw [List.mem_singleton.mp hl]
      obtain ⟨source, -, hline⟩ := exists_of_bind_ok hline
      cases hline
      rfl
  | measureRepeatedly m =>
      obtain ⟨source, target, rfl⟩ := eq_measure_of_ofRepeated h l hl
      rfl
  | input name value =>
      cases h
      cases hl
  | _ => cases h

end Line

namespace Body

/-- What one operation can add: a definition its declaration, a rotation whose symbolic angle is
deferred a line with the token of the angle, and every other operation its lines. -/
theorem step_ok {o : Line.Options} {cache : Option Placeholder.Cache} {op : Operation}
    {body : Body} (h : step o cache op = .ok body) :
    (∃ d, op = .define d ∧ body = ⟨[d.line], [], cache⟩) ∨
    (∃ c axis qubit theta line, cache = some c ∧ op = .gate (.rotation axis qubit theta) ∧
      theta.isSymbolic = true ∧
      Line.ofGate { o with placeholders := (c.stage theta).2.has }
        (.rotation axis qubit (.expression (c.stage theta).1)) = .ok line ∧
      body = ⟨[], [line], some (c.stage theta).2⟩) ∨
    (op.isDefinition = false ∧ (cache = none ∨ op.deferred? = none) ∧
      ∃ lines, Line.ofOperation o op = .ok lines ∧ body = ⟨[], lines, cache⟩) := by
  unfold step at h
  split at h
  next d =>
    cases h
    exact .inl ⟨d, rfl, rfl⟩
  next axis qubit theta c =>
    split at h
    next hsymbolic =>
      obtain ⟨line, hline, hbody⟩ := exists_of_bind_ok h
      cases hbody
      exact .inr (.inl ⟨c, axis, qubit, theta, line, rfl, rfl, hsymbolic, hline, rfl⟩)
    next hsymbolic =>
      obtain ⟨lines, hlines, hbody⟩ := exists_of_bind_ok h
      cases hbody
      exact .inr (.inr ⟨rfl, .inr (if_neg hsymbolic), lines, hlines, rfl⟩)
  next hdefine hrotation =>
    obtain ⟨lines, hlines, hbody⟩ := exists_of_bind_ok h
    cases hbody
    refine .inr (.inr ⟨?_, ?_, lines, hlines, rfl⟩)
    · cases op with
      | define d => exact absurd rfl (hdefine d)
      | _ => rfl
    · cases cache with
      | none => exact .inl rfl
      | some c =>
          -- A rotation with a cache is the case before.
          refine .inr ?_
          unfold Operation.deferred?
          split
          next axis qubit theta => exact absurd rfl (hrotation axis qubit theta c rfl)
          next => rfl

theorem ofOperations_cons_ok {o : Line.Options} {cache : Option Placeholder.Cache} {op : Operation}
    {ops : List Operation} {head tail : Body} (hhead : step o cache op = .ok head)
    (htail : ofOperations o head.cache ops = .ok tail) :
    ofOperations o cache (op :: ops) =
      .ok ⟨head.declarations ++ tail.declarations, head.lines ++ tail.lines, tail.cache⟩ := by
  rw [ofOperations, hhead]
  change (ofOperations o head.cache ops >>= _) = _
  rw [htail]
  rfl

/-- Induction over a run that succeeds: it adds nothing, or what one operation adds and then what a
run of the others adds, which goes on with the cache of the first. -/
theorem ofOperations_induction {o : Line.Options}
    {motive : ∀ cache ops body, ofOperations o cache ops = .ok body → Prop}
    (nil : ∀ cache, motive cache [] ⟨[], [], cache⟩ rfl)
    (cons : ∀ cache op ops head tail (hhead : step o cache op = .ok head)
      (htail : ofOperations o head.cache ops = .ok tail), motive head.cache ops tail htail →
      motive cache (op :: ops) _ (ofOperations_cons_ok hhead htail))
    {cache : Option Placeholder.Cache} {ops : List Operation} {body : Body}
    (h : ofOperations o cache ops = .ok body) : motive cache ops body h := by
  induction ops generalizing cache body with
  | nil =>
      cases h
      exact nil cache
  | cons op ops ih =>
      obtain ⟨head, hhead, hrest⟩ := exists_of_bind_ok h
      obtain ⟨tail, htail, hrest⟩ := exists_of_bind_ok hrest
      cases hrest
      exact cons cache op ops head tail hhead htail (ih htail)

theorem step_declarations {o : Line.Options} {cache : Option Placeholder.Cache} {op : Operation}
    {body : Body} (h : step o cache op = .ok body) :
    body.declarations = op.definition?.toList.map Declaration.line := by
  obtain ⟨d, rfl, rfl⟩ | ⟨c, axis, qubit, theta, line, rfl, rfl, -, -, rfl⟩ |
    ⟨hdef, -, lines, -, rfl⟩ := step_ok h
  · rfl
  · rfl
  · cases op with
    | define d => cases hdef
    | _ => rfl

theorem declarations_eq {o : Line.Options} {cache : Option Placeholder.Cache}
    {ops : List Operation} {body : Body} (h : ofOperations o cache ops = .ok body) :
    body.declarations = (Declaration.collect ops).map Declaration.line := by
  induction h using ofOperations_induction with
  | nil cache => rfl
  | cons cache op ops head tail hhead htail ih =>
      rw [step_declarations hhead, ih]
      unfold Declaration.collect
      cases hd : op.definition? <;> simp [hd]

theorem step_lines {o : Line.Options} {cache : Option Placeholder.Cache} {op : Operation}
    {body : Body} (h : step o cache op = .ok body) : ∀ l ∈ body.lines, l.register? = none := by
  obtain ⟨d, rfl, rfl⟩ | ⟨c, axis, qubit, theta, line, rfl, rfl, -, hline, rfl⟩ |
    ⟨hdef, -, lines, hlines, rfl⟩ := step_ok h
  · exact List.forall_mem_nil _
  · exact List.forall_mem_singleton.mpr (Line.register?_ofGate hline)
  · exact Line.register?_ofOperation hdef hlines

theorem register?_lines {o : Line.Options} {cache : Option Placeholder.Cache}
    {ops : List Operation} {body : Body} (h : ofOperations o cache ops = .ok body) :
    ∀ l ∈ body.lines, l.register? = none := by
  induction h using ofOperations_induction with
  | nil cache => exact List.forall_mem_nil _
  | cons cache op ops head tail hhead htail ih =>
      exact List.forall_mem_append.mpr ⟨step_lines hhead, ih⟩

theorem step_none {o : Line.Options} {op : Operation} (h : op.isDefinition = false) :
    step o none op = (fun lines => ⟨[], lines, none⟩) <$> Line.ofOperation o op := by
  cases op with
  | define d => cases h
  | gate g => cases g <;> rfl
  | _ => rfl

/-- With a cache, every operation but a rotation by a symbolic angle is written as it is without
one. -/
theorem step_of_not_deferred {o : Line.Options} {cache : Option Placeholder.Cache} {op : Operation}
    (hdef : op.isDefinition = false) (h : op.deferred? = none) :
    step o cache op = (fun lines => ⟨[], lines, cache⟩) <$> Line.ofOperation o op := by
  cases cache with
  | none => exact step_none hdef
  | some c =>
      cases op with
      | define d => cases hdef
      | gate g =>
          cases g with
          | rotation axis qubit theta =>
              have htheta : theta.isSymbolic = false := by simpa [Operation.deferred?] using h
              unfold step
              dsimp only
              rw [if_neg (by simp [htheta])]
              rfl
          | _ => rfl
      | _ => rfl

theorem ofOperations_eq_ok {o : Line.Options} {lines : Operation → List Line}
    {ops : List Operation} (hdefine : ∀ d, lines (.define d) = [])
    (h : ∀ op ∈ ops, op.isDefinition = false → Line.ofOperation o op = .ok (lines op)) :
    ofOperations o none ops =
      .ok ⟨(Declaration.collect ops).map Declaration.line, ops.flatMap lines, none⟩ := by
  induction ops with
  | nil => rfl
  | cons op ops ih =>
      have hrest := ih (fun op' hop' => h op' (.tail _ hop'))
      rw [ofOperations]
      by_cases hdef : op.isDefinition = true
      · cases op with
        | define d =>
            change (ofOperations o none ops >>= _) = _
            rw [hrest, List.flatMap_cons, hdefine]
            rfl
        | _ => cases hdef
      · rw [Bool.not_eq_true] at hdef
        rw [step_none hdef, h op (.head _) hdef]
        change (ofOperations o none ops >>= _) = _
        rw [hrest]
        have hnone : op.definition? = none := by
          unfold Operation.isDefinition at hdef
          simpa using hdef
        simp [Declaration.collect, hnone]

end Body

end OpenQasm

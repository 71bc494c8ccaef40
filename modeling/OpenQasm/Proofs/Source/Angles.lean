import OpenQasm.Proofs.Placeholder.Sharing
import OpenQasm.Proofs.Source.Scopes

/-!
# The angles of rotations that are read

A rotation statement gives its angle as a text. If the text has a value without variables, the
rotation is read with that number. If not, the text is kept as it is, provided that a letter or an
underscore occurs in it. This test does not ask whether the text is an expression, and variables are
not the only reason for having no value: `2*theta+` is kept, and no variables ever give it a value.
So the kept angles of a circuit can be evaluated exactly if the program gives expressions as angles.
-/
namespace OpenQasm.Source

open OpenQasm.Expr OpenQasm.Text

/-- The arguments of a rotation hold its angle. The rotation about `x` by `pi/2` is a gate of its
own, which has none. -/
def angleOf? (mnemonic : String) : List (List Char) → Option String
  | [angle] =>
      if mnemonic ∈ ["rx", "ry", "rz"] ∧
          ¬(mnemonic = "rx" ∧ removeBlanks angle = "pi/2".toList) then
        some (String.ofList angle)
      else none
  | _ => none

def angle? (cs : List Char) : Option String :=
  match Command.ofText cs with
  | .apply mnemonic arguments _ => angleOf? mnemonic arguments
  | _ => none

def angles (source : String) : List String :=
  (statements source.toList).1.filterMap (fun st => angle? st.text)

def theta? : Operation → Option Parameter
  | .gate (.rotation _ _ theta) => some theta
  | _ => none

/-- How the text of an angle is read. -/
inductive ReadsAs (text : String) : Parameter → Prop
  | value {x : Float} (h : Calculator.empty.evaluate (.expression text) = .ok x) :
      ReadsAs text (.number x)
  | kept (h : ∀ x, Calculator.empty.evaluate (.expression text) ≠ .ok x)
      (hletter : text.toList.any isNameStart = true) : ReadsAs text (.expression text)

theorem readsAs_of_parameter {cs : List Char} {theta : Parameter}
    (h : Scope.parameter cs = .ok theta) : ReadsAs (String.ofList cs) theta := by
  unfold Scope.parameter at h
  split at h
  next x hvalue =>
    cases h
    exact .value hvalue
  next e hnone =>
    split_ifs at h with hletter
    cases h
    refine .kept (fun x hx => ?_) (by rwa [String.toList_ofList])
    rw [hnone] at hx
    cases hx

/-- An expression is a text that some variables give a value to. -/
theorem isExpression_iff {text : String} :
    IsExpression text ↔ ∃ (c : Calculator) (x : Float), c.evaluate (.expression text) = .ok x := by
  simp only [← Calculator.outcome_eq_some_iff]
  exact ⟨Calculator.exists_outcome, fun ⟨_, _, h⟩ => Calculator.isExpression_of_outcome h⟩

/-- The texts that are kept are expressions exactly if all texts are: one with a value is an
expression anyway. -/
theorem kept_isExpression_iff {texts : List String} {thetas : List Parameter}
    (h : List.Forall₂ ReadsAs texts thetas) :
    (∀ text, .expression text ∈ thetas → IsExpression text) ↔
      ∀ text ∈ texts, IsExpression text := by
  induction h with
  | nil => simp
  | cons hread hrest ih =>
      rw [List.forall_mem_cons, ← ih]
      cases hread with
      | value hvalue => simp [isExpression_iff.mpr ⟨_, _, hvalue⟩]
      | kept => simp

theorem angleOf?_of_not_mem {mnemonic : String} (h : mnemonic ∉ ["rx", "ry", "rz"])
    (arguments : List (List Char)) : angleOf? mnemonic arguments = none := by
  unfold angleOf?
  split
  · rw [if_neg (fun hrotation => h hrotation.1)]
  · rfl

namespace Scope

variable {mnemonic : String} {arguments : List (List Char)} {n : ℕ}

/-- The kind that is chosen for a gate statement has its mnemonic, and its arguments are as many as
the kind asks for, with the fixed ones spelled as it says. -/
theorem spec_of_find {kind : GateKind}
    (h : (kindsOf mnemonic).find? (fun kind => fits kind.rule arguments n) = some kind) :
    kind.rule.mnemonic = mnemonic ∧ kind.rule.qubits.length = n ∧
      arguments.length = kind.rule.parameters.length + kind.rule.constants.length ∧
      (arguments.drop kind.rule.parameters.length).map removeBlanks =
        kind.rule.constants.map String.toList := by
  have hfits : fits kind.rule arguments n = true := by simpa using List.find?_some h
  simp only [fits, Bool.and_eq_true, beq_iff_eq] at hfits
  have hmnemonic : kind.rule.mnemonic = mnemonic := by
    have hmem := List.mem_of_find?_eq_some h
    simp only [kindsOf, List.mem_append, List.mem_filter, beq_iff_eq] at hmem
    rcases hmem with hmem | hmem
    · exact hmem.1.2
    · exact hmem.1.2
  exact ⟨hmnemonic, hfits.1.1, hfits.1.2, hfits.2⟩

/-- A statement that a rotation is chosen for gives an angle, since the gate with the fixed angle
comes first. -/
theorem angleOf?_of_rotation {axis : Axis}
    (h : (kindsOf mnemonic).find? (fun kind => fits kind.rule arguments n) =
      some (.rotation axis)) :
    ∃ angle, arguments = [angle] ∧ angleOf? mnemonic arguments = some (String.ofList angle) := by
  obtain ⟨hmnemonic, hqubits, hlength, -⟩ := spec_of_find h
  obtain ⟨angle, rfl⟩ := List.length_eq_one_iff.mp hlength
  refine ⟨angle, rfl, if_pos ⟨?_, ?_⟩⟩
  · rw [← hmnemonic]
    cases axis <;> decide
  · rintro ⟨rfl, hangle⟩
    have hkinds : kindsOf "rx" = [.fixed .sqrtPauliX, .rotation .x] := by decide
    have hfixed : fits (GateKind.fixed .sqrtPauliX).rule [angle] n = true := by
      rw [← hqubits]
      simpa [fits, GateKind.rule, GateKind.constants] using hangle
    simp [hkinds, hfixed] at h

theorem angleOf?_of_fixed {gate : FixedGate}
    (h : (kindsOf mnemonic).find? (fun kind => fits kind.rule arguments n) = some (.fixed gate)) :
    angleOf? mnemonic arguments = none := by
  obtain ⟨rfl, -, -, hconstants⟩ := spec_of_find h
  cases gate with
  | sqrtPauliX =>
      unfold angleOf?
      split
      next angle =>
        refine if_neg (fun hrotation => hrotation.2 ⟨rfl, ?_⟩)
        exact List.singleton_inj.mp hconstants
      next => rfl
  | _ => exact angleOf?_of_not_mem (by decide) arguments

theorem angleOf?_of_pair {gate : PairGate}
    (h : (kindsOf mnemonic).find? (fun kind => fits kind.rule arguments n) = some (.pair gate)) :
    angleOf? mnemonic arguments = none := by
  obtain ⟨rfl, -⟩ := spec_of_find h
  exact angleOf?_of_not_mem (by cases gate <;> decide) arguments

/-- The operation of a gate statement is a rotation exactly if the statement gives an angle, and
then it has this angle. -/
theorem readsAs_operation {qubits : List Float} {op : Operation}
    (h : operation mnemonic arguments qubits = .ok op) :
    List.Forall₂ ReadsAs (angleOf? mnemonic arguments).toList (theta? op).toList := by
  obtain ⟨rfl, g, -, rfl⟩ | ⟨-, kind, values, g, hkind, hvalues, hgate, rfl⟩ := operation_ok h
  · rw [angleOf?_of_not_mem (by decide)]
    exact .nil
  · unfold gate? at hgate
    split at hgate
    next axis q theta =>
      cases hgate
      obtain ⟨angle, rfl, hangle⟩ := angleOf?_of_rotation hkind
      have hread : List.Forall₂ (fun cs value => parameter cs = .ok value) [angle] [theta] :=
        forall₂_of_mapM hvalues
      rw [hangle]
      exact .cons (readsAs_of_parameter (List.forall₂_cons.mp hread).1) .nil
    next gate q =>
      cases hgate
      rw [angleOf?_of_fixed hkind]
      exact .nil
    next gate c t =>
      cases hgate
      rw [angleOf?_of_pair hkind]
      exact .nil
    next => cases hgate

theorem theta?_measurement {s : Scope} {source target : List Char} {op : Operation}
    (h : s.measurement source target = .ok op) : theta? op = none := by
  unfold measurement at h
  split_ifs at h
  · cases h
    rfl
  · obtain ⟨q, -, h⟩ := exists_of_bind_ok h
    obtain ⟨b, -, h⟩ := exists_of_bind_ok h
    cases h
    rfl

theorem exists_of_emit_ok {s s' : Scope} {line : ℕ} {op : Except Fault Operation}
    (h : s.emit line op = .ok s') : ∃ o, op = .ok o ∧ s' = s.push o := by
  unfold emit at h
  split at h
  next => cases h
  next o =>
    split at h
    next c hadd =>
      obtain ⟨-, rfl⟩ := Circuit.add_ok hadd
      cases h
      exact ⟨o, rfl, rfl⟩
    next => cases h

/-- From one scope to another the circuit gains operations whose rotations have the given angles. -/
def Gains (s s' : Scope) (texts : List String) : Prop :=
  ∃ added, s'.circuit.operations = s.circuit.operations ++ added ∧
    List.Forall₂ ReadsAs texts (added.filterMap theta?)

theorem Gains.none {s s' : Scope} (h : s'.circuit = s.circuit) : s.Gains s' [] :=
  ⟨[], by rw [h, List.append_nil], .nil⟩

theorem Gains.push {s s' : Scope} {op : Operation} {texts : List String}
    (h : s'.circuit = (s.push op).circuit)
    (hreads : List.Forall₂ ReadsAs texts (theta? op).toList) : s.Gains s' texts := by
  refine ⟨[op], by rw [h, operations_push], ?_⟩
  rwa [List.filterMap_eq_flatMap_toList, List.flatMap_singleton]

theorem Gains.trans {s₁ s₂ s₃ : Scope} {texts texts' : List String} (h : s₁.Gains s₂ texts)
    (h' : s₂.Gains s₃ texts') : s₁.Gains s₃ (texts ++ texts') := by
  obtain ⟨added, hadded, hreads⟩ := h
  obtain ⟨added', hadded', hreads'⟩ := h'
  refine ⟨added ++ added', by rw [hadded', hadded, List.append_assoc], ?_⟩
  rw [List.filterMap_append]
  exact List.rel_append hreads hreads'

/-- A statement adds a rotation by the angle that it gives, and no other rotation. -/
theorem gains_step {s s' : Scope} {st : Statement} (h : s.step st = .ok s') :
    s.Gains s' (angle? st.text).toList := by
  unfold step at h
  dsimp only at h
  unfold angle?
  split at h
  next version hcommand =>
    rw [hcommand]
    split_ifs at h
    cases h
    exact .none rfl
  next command hversion =>
    split_ifs at h
    split at h
    next isQubit name size hcommand =>
      rw [hcommand]
      obtain ⟨n, -, rfl⟩ := spells_of_declare hcommand
      have houtcome := declare_outcome s st.line isQubit (name, n)
      rw [h] at houtcome
      cases houtcome with
      | advances hadvances =>
          cases hadvances with
          | qubits => exact .none rfl
          | bits => exact .push rfl .nil
          | perform hperforms => cases hperforms
    next source target hcommand =>
      rw [hcommand]
      obtain ⟨op, hop, rfl⟩ := exists_of_emit_ok h
      refine .push rfl ?_
      rw [theta?_measurement hop]
      exact .nil
    next mnemonic arguments operands hcommand =>
      rw [hcommand]
      split_ifs at h
      obtain ⟨op, hop, rfl⟩ := exists_of_emit_ok h
      obtain ⟨qubits, -, hop⟩ := exists_of_bind_ok hop
      exact .push rfl (readsAs_operation hop)
    next => cases h
    next hdeclare hmeasure happly hunknown =>
      cases h
      split
      next hcommand => exact absurd hcommand (happly _ _ _)
      next => exact .none rfl

theorem gains_run {s s' : Scope} {sts : List Statement} (h : s.run sts = .ok s') :
    s.Gains s' (sts.filterMap (fun st => angle? st.text)) := by
  induction sts generalizing s with
  | nil =>
      cases h
      exact .none rfl
  | cons st sts ih =>
      rw [run] at h
      obtain ⟨s₁, hstep, hrun⟩ := exists_of_bind_ok h
      have hgains := (gains_step hstep).trans (ih hrun)
      rwa [List.filterMap_eq_flatMap_toList] at hgains ⊢

end Scope

theorem mem_thetas_iff {ops : List Operation} {theta : Parameter} :
    theta ∈ ops.filterMap theta? ↔ ∃ axis q, .gate (.rotation axis q theta) ∈ ops := by
  rw [List.mem_filterMap]
  constructor
  · rintro ⟨op, hop, htheta⟩
    unfold theta? at htheta
    split at htheta
    next axis q _ =>
      cases htheta
      exact ⟨axis, q, hop⟩
    next => cases htheta
  · rintro ⟨axis, q, hop⟩
    exact ⟨_, hop, rfl⟩

/-- The rotations of a circuit have the angles that the program gives, in order: each is a number if
its text has a value without variables, and the text itself otherwise. Every text among them has a
value under some calculator exactly if the program gives expressions only. -/
theorem read_angles_iff {source : String} {result : Result} (h : read source = .ok result) :
    List.Forall₂ ReadsAs (angles source) (result.circuit.operations.filterMap theta?) ∧
      ((∀ axis q text, .gate (.rotation axis q (.expression text)) ∈ result.circuit.operations →
          ∃ (c : Calculator) (x : Float), c.evaluate (.expression text) = .ok x) ↔
        ∀ text ∈ angles source, IsExpression text) := by
  obtain ⟨s, hrun, rfl⟩ := exists_scope h
  obtain ⟨added, hadded, hreads⟩ := Scope.gains_run hrun
  have hadded : s.circuit.operations = added := hadded
  rw [← hadded] at hreads
  refine ⟨hreads, Iff.trans ?_ (kept_isExpression_iff hreads)⟩
  simp only [mem_thetas_iff, isExpression_iff]
  constructor
  · rintro hkept text ⟨axis, q, hop⟩
    exact hkept axis q text hop
  · intro hkept axis q text hop
    exact hkept text ⟨axis, q, hop⟩

/-- A program with an angle that has a value, one that needs a variable, and the fixed one. -/
def threeAngles : String :=
  "OPENQASM 2.0;\nqreg q[2];\nrz(-pi) q[1];\nrx( pi / 2 ) q[0];\nrx(2*theta+1) q[0];"

theorem read_angles_iff_threeAngles :
    read threeAngles = .ok ⟨⟨none, [.gate (.rotation .z 1 (.number (-3.141592653589793))),
        .gate (.fixed .sqrtPauliX 0), .gate (.rotation .x 0 (.expression "2*theta+1"))]⟩, 2⟩ ∧
      angles threeAngles = ["-pi", "2*theta+1"] ∧
      ∃ (c : Calculator) (x : Float), c.evaluate (.expression "2*theta+1") = .ok x := by
  have hread : read threeAngles = .ok ⟨⟨none,
      [.gate (.rotation .z 1 (.number (-3.141592653589793))), .gate (.fixed .sqrtPauliX 0),
        .gate (.rotation .x 0 (.expression "2*theta+1"))]⟩, 2⟩ := by decide +kernel
  have hangles : angles threeAngles = ["-pi", "2*theta+1"] := by decide +kernel
  refine ⟨hread, hangles, (read_angles_iff hread).2.mpr ?_ .x 0 "2*theta+1" (by simp)⟩
  have hpi : IsExpression "-pi" :=
    Calculator.isExpression_of_outcome (c := .empty) (x := -3.141592653589793) (by decide +kernel)
  have htheta : IsExpression "2*theta+1" :=
    Calculator.isExpression_of_outcome (c := .ofList [("theta", 1)]) (x := 3) (by decide +kernel)
  simp [hangles, hpi, htheta]

/-- An angle that ends with an operator is kept, and no calculator has a value for it. -/
theorem read_danglingAngle :
    read "OPENQASM 2.0;\nqreg q[1];\nrx(2*theta+) q[0];" =
        .ok ⟨⟨none, [.gate (.rotation .x 0 (.expression "2*theta+"))]⟩, 1⟩ ∧
      ∀ (c : Calculator) (x : Float), c.evaluate (.expression "2*theta+") ≠ .ok x := by
  refine ⟨by decide +kernel, fun c x hx => ?_⟩
  obtain ⟨ts, hlex, -, t, rfl⟩ := isExpression_iff.mpr ⟨c, x, hx⟩
  have hderive := derive_tokens t
  have hnone : (lex "2*theta+".toList).toOption.bind derive = none := by decide +kernel
  rw [hlex] at hnone
  simp [Except.toOption, hderive] at hnone

end OpenQasm.Source

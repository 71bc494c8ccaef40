import OpenQasm.Proofs.Backend.Problems
import OpenQasm.Proofs.Simulator.Requests

/-!
# Inputs of a circuit as defaults for its variables

An input gives a variable a value for the whole circuit, wherever it stands. The last input of a
name decides, and the substitutions of the backend override it. So inputs can be taken out of a
circuit and handed over as substitutions. One name is an exception: no input value is kept under
`Metadata.reservedName`, although it can be written in an expression and substituted.
-/
namespace OpenQasm

/-- The last value that entries give to a name. -/
def lastValue (entries : List (String × Float)) (name : String) : Option Float :=
  (entries.filterMap (fun e => if e.1 = name then some e.2 else none)).getLast?

theorem lastValue_append (entries entries' : List (String × Float)) (name : String) :
    lastValue (entries ++ entries') name =
      (lastValue entries' name).or (lastValue entries name) := by
  unfold lastValue
  rw [List.filterMap_append, List.getLast?_append]

theorem lastValue_eq_none_iff {entries : List (String × Float)} {name : String} :
    lastValue entries name = none ↔ name ∉ entries.map Prod.fst := by
  unfold lastValue
  rw [List.getLast?_eq_none_iff, List.filterMap_eq_nil_iff, List.mem_map]
  constructor
  · rintro h ⟨e, he, rfl⟩
    simpa using h e he
  · intro h e he
    rw [if_neg (fun hname => h ⟨e, he, hname⟩)]

theorem exists_lastValue {entries : List (String × Float)} {name : String}
    (h : name ∈ entries.map Prod.fst) : ∃ x, lastValue entries name = some x := by
  refine Option.ne_none_iff_exists'.mp (fun hnone => ?_)
  exact lastValue_eq_none_iff.mp hnone h

theorem Table.get?_insertAll_last (t : Table String Float) (entries : List (String × Float))
    (name : String) :
    (t.insertAll entries).get? name = (lastValue entries name).or (t.get? name) := by
  induction entries using List.reverseRecOn with
  | nil => rfl
  | append_singleton entries e ih =>
      have hconcat : t.insertAll (entries ++ [e]) = (t.insertAll entries).insert e.1 e.2 :=
        List.foldl_append
      rw [hconcat, lastValue_append]
      by_cases hname : e.1 = name
      · subst hname
        simp [lastValue]
      · rw [get?_insert_of_ne _ _ (Ne.symm hname), ih]
        simp [lastValue, hname]

theorem Table.get?_ofList_last (entries : List (String × Float)) (name : String) :
    (Table.ofList entries).get? name = lastValue entries name :=
  (Table.get?_insertAll_last .empty entries name).trans (Option.or_none)

/-- Only what its names stand for decides what a calculator makes of a parameter. -/
theorem Calculator.evaluate_congr {c d : Calculator}
    (h : ∀ name, c.values.get? name = d.values.get? name) : c.evaluate = d.evaluate := by
  have hlookup : c.lookup? = d.lookup? := by
    funext name
    unfold lookup?
    rw [h name]
  have hdefined : c.isDefined = d.isDefined := by
    funext name
    unfold isDefined
    rw [hlookup]
  have hvaluation : c.valuation = d.valuation := by
    funext name
    unfold valuation
    rw [hlookup]
  funext p
  unfold evaluate
  rw [hdefined, hvaluation]

namespace Operation

def input? : Operation → Option (String × Float)
  | input name value => some (name, value)
  | _ => none

def inputs (ops : List Operation) : List (String × Float) :=
  ops.filterMap input?

def withoutInputs (ops : List Operation) : List Operation :=
  ops.filter (fun op => op.input?.isNone)

theorem withoutInputs_append (ops ops' : List Operation) :
    withoutInputs (ops ++ ops') = withoutInputs ops ++ withoutInputs ops' :=
  List.filter_append ops ops'

theorem withoutInputs_input (name : String) (value : Float) (ops : List Operation) :
    withoutInputs (.input name value :: ops) = withoutInputs ops :=
  rfl

theorem withoutInputs_other {op : Operation} (h : op.input? = none) (ops : List Operation) :
    withoutInputs (op :: ops) = op :: withoutInputs ops := by
  unfold withoutInputs
  rw [List.filter_cons_of_pos (by rw [h]; rfl)]

def ofInputs (values : List (String × Float)) : List Operation :=
  values.map (fun e => .input e.1 e.2)

theorem inputs_ofInputs_append (values : List (String × Float)) (ops : List Operation)
    (h : inputs ops = []) : inputs (ofInputs values ++ ops) = values := by
  have hvalues : inputs (ofInputs values) = values := by
    unfold inputs ofInputs
    rw [List.filterMap_map]
    exact List.filterMap_some
  change (ofInputs values ++ ops).filterMap input? = values
  rw [List.filterMap_append]
  change inputs (ofInputs values) ++ inputs ops = values
  rw [hvalues, h, List.append_nil]

theorem withoutInputs_ofInputs_append (values : List (String × Float)) (ops : List Operation)
    (h : withoutInputs ops = ops) : withoutInputs (ofInputs values ++ ops) = ops := by
  have hnone : withoutInputs (ofInputs values) = [] := by
    unfold withoutInputs ofInputs
    rw [List.filter_eq_nil_iff]
    intro op hop
    obtain ⟨e, -, rfl⟩ := List.mem_map.mp hop
    simp [input?]
  rw [withoutInputs_append, hnone, h, List.nil_append]

theorem eq_input {op : Operation} {e : String × Float} (h : op.input? = some e) :
    op = .input e.1 e.2 := by
  cases op with
  | input name value =>
      cases h
      rfl
  | _ => cases h

end Operation

open Operation (inputs withoutInputs)

namespace Classified

/-- What classification leaves if inputs are taken out. -/
def uninput (c : Classified) : Classified where
  circuit := ⟨c.circuit.name, withoutInputs c.circuit.operations⟩
  metadata := { c.metadata with inputs := .empty }
  initialState := c.initialState

theorem step_input (c : Classified) (name : String) (value : Float) :
    ∃ d, c.step (.input name value) = .ok d ∧ d.uninput = c.uninput := by
  refine ⟨_, step_eq_ok (fun _ q hq => by cases hq), ?_⟩
  obtain ⟨values, hrecord⟩ := c.metadata.record_input name value
  have hoperations : withoutInputs (c.circuit.operations ++ [.input name value]) =
      withoutInputs c.circuit.operations := by
    rw [Operation.withoutInputs_append]
    exact List.append_nil _
  change Classified.mk ⟨c.circuit.name, withoutInputs (c.circuit.operations ++ [.input name value])⟩
    { c.metadata.record (.input name value) with inputs := .empty } c.initialState = _
  rw [hoperations, hrecord]
  rfl

/-- Every other operation does the same whether inputs were taken out or not. -/
theorem step_uninput {op : Operation} (h : op.input? = none) (c : Classified) :
    c.uninput.step op = uninput <$> c.step op := by
  have hrecord : c.uninput.metadata.record op =
      { c.metadata.record op with inputs := .empty } := by
    cases op with
    | input name value => cases h
    | _ => rfl
  have hadd : c.uninput.circuit.add op =
      (fun circuit => ⟨circuit.name, withoutInputs circuit.operations⟩) <$> c.circuit.add op := by
    unfold Circuit.add
    split
    next => rfl
    next =>
      have hoperations : withoutInputs (c.circuit.operations ++ [op]) =
          withoutInputs c.circuit.operations ++ [op] := by
        rw [Operation.withoutInputs_append, Operation.withoutInputs_other h]
        rfl
      exact congrArg (fun ops => Except.ok (Circuit.mk c.circuit.name ops)) hoperations.symm
  unfold step
  rw [hrecord]
  by_cases hw : isWritten op = true
  · rw [if_pos hw, if_pos hw, hadd]
    cases c.circuit.add op <;> rfl
  · rw [if_neg hw, if_neg hw]
    rfl

theorem run_uninput (c : Classified) (ops : List Operation) :
    c.uninput.run (withoutInputs ops) = uninput <$> c.run ops := by
  induction ops generalizing c with
  | nil => rfl
  | cons op ops ih =>
      cases hop : op.input? with
      | some e =>
          obtain ⟨d, hstep, hd⟩ := c.step_input e.1 e.2
          rw [Operation.eq_input hop, Operation.withoutInputs_input, run, hstep, ← hd]
          exact ih d
      | none =>
          rw [Operation.withoutInputs_other hop, run, run, step_uninput hop]
          cases c.step op with
          | error e => rfl
          | ok d => exact ih d

/-- Classification accepts the same circuits without their inputs, and refuses the others for the
same reason. -/
theorem ofOperations_withoutInputs (name : Option String) (ops : List Operation)
    (requireOutput : Bool) :
    ofOperations name (withoutInputs ops) requireOutput =
      uninput <$> ofOperations name ops requireOutput := by
  have hrun := run_uninput ⟨.empty name, .empty, none⟩ ops
  change run ⟨.empty name, .empty, none⟩ (withoutInputs ops) = _ at hrun
  unfold ofOperations
  rw [hrun]
  cases run ⟨.empty name, .empty, none⟩ ops with
  | error e => rfl
  | ok c =>
      change ((c.metadata.validate requireOutput).mapError Error.conflict >>= _) =
        uninput <$> ((c.metadata.validate requireOutput).mapError Error.conflict >>= _)
      cases c.metadata.validate requireOutput <;> rfl

end Classified

namespace Body

theorem ofOperations_withoutInputs (o : Line.Options) (cache : Option Placeholder.Cache)
    (ops : List Operation) :
    ofOperations o cache (withoutInputs ops) = ofOperations o cache ops := by
  induction ops generalizing cache with
  | nil => rfl
  | cons op ops ih =>
      cases hop : op.input? with
      | some e =>
          have hstep : step o cache (.input e.1 e.2) = .ok ⟨[], [], cache⟩ := by
            cases cache <;> rfl
          rw [Operation.eq_input hop, Operation.withoutInputs_input, ofOperations, hstep, ih]
          change _ = (ofOperations o cache ops >>= _)
          cases ofOperations o cache ops <;> rfl
      | none =>
          rw [Operation.withoutInputs_other hop, ofOperations, ofOperations]
          cases step o cache op with
          | error e => rfl
          | ok head =>
              change (ofOperations o head.cache (withoutInputs ops) >>= _) =
                (ofOperations o head.cache ops >>= _)
              rw [ih]

end Body

namespace Backend

/-- Substitutions that give every name the value that it is given, and else its last input. -/
def Overrides (given inputs result : List (String × Float)) : Prop :=
  ∀ name, lastValue result name = (lastValue given name).or (lastValue inputs name)

theorem overrides_append (given inputs : List (String × Float)) :
    Overrides given inputs (inputs ++ given) :=
  lastValue_append inputs given

def kept (inputs : List (String × Float)) : List (String × Float) :=
  inputs.filter (fun e => e.1 != Metadata.reservedName)

theorem recorded_eq_kept (ops : List Operation) :
    ops.filterMap Operation.recorded? = kept (inputs ops) := by
  unfold kept inputs
  rw [List.filter_filterMap]
  congr 1
  funext op
  cases op with
  | input name value =>
      by_cases hname : name = Metadata.reservedName <;>
        simp [Operation.recorded?, Operation.input?, hname, Option.filter]
  | _ => rfl

theorem lastValue_kept (inputs : List (String × Float)) (name : String) :
    lastValue (kept inputs) name =
      if name = Metadata.reservedName then none else lastValue inputs name := by
  have hentry (e : String × Float) :
      (if e.1 != Metadata.reservedName then (if e.1 = name then some e.2 else none) else none) =
        if name = Metadata.reservedName then none else if e.1 = name then some e.2 else none := by
    by_cases hname : e.1 = name
    · subst hname
      by_cases hreserved : e.1 = Metadata.reservedName <;> simp [hreserved]
    · simp [hname]
  unfold lastValue kept
  rw [List.filterMap_filter]
  simp only [hentry]
  split
  · simp
  · rfl

/-- The calculator of a circuit finds the substitutions, and else the last inputs that are kept. -/
theorem get?_calculator (o : Options) {ops : List Operation} {requireOutput : Bool}
    {c : Classified} (h : Classified.ofOperations none ops requireOutput = .ok c)
    (name : String) :
    (calculator o c.metadata).values.get? name =
      (lastValue o.substitutions name).or (lastValue (kept (inputs ops)) name) := by
  have hinputs : c.metadata.inputs = Table.ofList (kept (inputs ops)) := by
    rw [(Classified.ofOperations_ok h).1, ← recorded_eq_kept]
    exact Metadata.inputs_foldl ops
  change (c.metadata.inputs.insertAll o.substitutions).get? name = _
  rw [Table.get?_insertAll_last, hinputs, Table.get?_ofList_last]

theorem size_uninput (o : Options) (c : Classified) (given : List (String × Float)) :
    size { o with substitutions := given } c.uninput.circuit = size o c.circuit := by
  have hqubits : (withoutInputs c.circuit.operations).flatMap Operation.qubits =
      c.circuit.operations.flatMap Operation.qubits := by
    refine flatMap_filter_of_nil (fun op hop => ?_)
    obtain ⟨e, he⟩ := Option.isSome_iff_exists.mp (by simpa using hop)
    rw [Operation.eq_input he]
    rfl
  have hoperations : c.uninput.circuit.operations = withoutInputs c.circuit.operations := rfl
  have hcount : c.uninput.circuit.qubitCount = c.circuit.qubitCount := by
    unfold Circuit.qubitCount
    rw [hoperations, hqubits]
  unfold size
  rw [hcount]

theorem compile_of_refused (o : Options) {ops : List Operation} (symbolic : Bool)
    {e : Classified.Error} (h : Classified.ofOperations none ops false = .error e) :
    compile o ops symbolic = .error (.classified e) := by
  unfold compile
  rw [h]
  rfl

/-- Inputs that are kept can be handed over as substitutions. -/
theorem compile_of_overrides {o : Options} {ops : List Operation} {given : List (String × Float)}
    (h : Overrides o.substitutions (kept (inputs ops)) given) (symbolic : Bool) :
    compile o ops symbolic =
      compile { o with substitutions := given } (withoutInputs ops) symbolic := by
  have hclassified := Classified.ofOperations_withoutInputs none ops false
  cases hc : Classified.ofOperations none ops false with
  | error e =>
      rw [hc] at hclassified
      rw [compile_of_refused o symbolic hc, compile_of_refused _ symbolic hclassified]
  | ok c =>
      rw [hc] at hclassified
      have hevaluate : (calculator { o with substitutions := given } c.uninput.metadata).evaluate =
          (calculator o c.metadata).evaluate := by
        refine Calculator.evaluate_congr (fun name => ?_)
        rw [get?_calculator o hc, ← h name]
        exact Table.get?_ofList_last given name
      have hbody := Body.ofOperations_withoutInputs
        ⟨⟨o.register, o.names⟩, some (calculator o c.metadata).evaluate, fun _ => false⟩
        (if symbolic then some Placeholder.Cache.empty else none) c.circuit.operations
      have hoperations : c.uninput.circuit.operations = withoutInputs c.circuit.operations := rfl
      rw [compile_of_classified o symbolic hc, compile_of_classified _ symbolic hclassified,
        hevaluate, size_uninput, hoperations]
      dsimp only
      rw [hbody]

/-- Where inputs stand makes no difference, as long as the last one of each name stays. -/
theorem compile_of_lastValue (o : Options) {ops ops' : List Operation}
    (hothers : withoutInputs ops = withoutInputs ops')
    (hlast : ∀ name, lastValue (inputs ops) name = lastValue (inputs ops') name)
    (symbolic : Bool) : compile o ops symbolic = compile o ops' symbolic := by
  have hkept : Overrides o.substitutions (kept (inputs ops'))
      (kept (inputs ops) ++ o.substitutions) := by
    intro name
    rw [lastValue_append, lastValue_kept, lastValue_kept, hlast]
  rw [compile_of_overrides (overrides_append _ _), compile_of_overrides hkept, hothers]

theorem compile_eq_error_iff (o : Options) {ops : List Operation}
    (h : ∀ op ∈ ops, ∀ q ∈ op.qubits, Number.isNatural q = true) {symbolic : Bool} {e : Error} :
    compile o ops symbolic = .error e ↔ (problems o ops symbolic).head? = some e :=
  (reports_compile o h symbolic).eq_error_iff

def reservedAngle : Operation :=
  .gate (.rotation .x 0 (.expression Metadata.reservedName))

theorem evaluate_reserved (c : Calculator) :
    c.evaluate (.expression Metadata.reservedName) =
      match c.values.get? Metadata.reservedName with
      | some x => .ok x
      | none => .error ⟨Metadata.reservedName, .expr (.unset Metadata.reservedName)⟩ := by
  have hlex : Expr.lex Metadata.reservedName.toList = .ok [.name Metadata.reservedName] := by
    decide +kernel
  have hconstant : Calculator.constant? Metadata.reservedName = none := rfl
  have hlookup : c.lookup? Metadata.reservedName = c.values.get? Metadata.reservedName := by
    unfold Calculator.lookup?
    rw [hconstant]
    cases c.values.get? Metadata.reservedName <;> rfl
  have hparse : Expr.parse c.isDefined Metadata.reservedName.toList =
      if c.isDefined Metadata.reservedName then .ok (.variable Metadata.reservedName)
      else .error (.unset Metadata.reservedName) := by
    unfold Expr.parse Expr.tokens
    rw [hlex]
    change Expr.operand c.isDefined [] [.name Metadata.reservedName] = _
    rw [Expr.operand]
    · rfl
    · rintro rest ⟨⟩
  unfold Calculator.evaluate
  dsimp only
  rw [hparse]
  unfold Calculator.isDefined
  rw [hlookup]
  cases hvalue : c.values.get? Metadata.reservedName with
  | none => rfl
  | some x =>
      change Except.ok (c.valuation Metadata.reservedName) = _
      unfold Calculator.valuation
      rw [hlookup, hvalue]
      rfl

theorem problems_reservedAngle (o : Options) :
    problems o [reservedAngle] false =
      (match lastValue o.substitutions Metadata.reservedName with
      | some _ => []
      | none =>
          [.line (.parameter ⟨Metadata.reservedName, .expr (.unset Metadata.reservedName)⟩)]) ++
      (QubitNames.problems o.names 0).map (fun q => .line (.unnamed q)) := by
  have hproblems : problems o [reservedAngle] false =
      ((Parameter.problems (.ofList o.substitutions)
        (.expression Metadata.reservedName)).map (fun e => .line (.parameter e))) ++
      (QubitNames.problems o.names 0).map (fun q => .line (.unnamed q)) := by
    simp [problems, Metadata.conflicts, reservedAngle, Operation.problems, Operation.refusals,
      Operation.evaluated, Operation.operands, Gate.qubits, valuesOf, Operation.recorded?,
      Operation.repeated?, Operation.single?, Operation.stateVectorReadout?]
    rfl
  have hvalue : (Calculator.ofList o.substitutions).values.get? Metadata.reservedName =
      lastValue o.substitutions Metadata.reservedName := Table.get?_ofList_last _ _
  rw [hproblems]
  unfold Parameter.problems
  rw [evaluate_reserved, hvalue]
  cases lastValue o.substitutions Metadata.reservedName <;> rfl

theorem compile_reservedAngle_ne {o : Options} {given : List (String × Float)} {x : Float}
    (hunset : lastValue o.substitutions Metadata.reservedName = none)
    (hset : lastValue given Metadata.reservedName = some x) :
    compile o [reservedAngle] false ≠
      compile { o with substitutions := given } [reservedAngle] false := by
  have hvalid : ∀ op ∈ [reservedAngle], ∀ q ∈ op.qubits, Number.isNatural q = true := by
    decide +kernel
  have hhead : (problems o [reservedAngle] false).head? =
      some (.line (.parameter ⟨Metadata.reservedName, .expr (.unset Metadata.reservedName)⟩)) := by
    rw [problems_reservedAngle, hunset]
    rfl
  intro heq
  have hright := (compile_eq_error_iff _ hvalid).mp
    (heq.symm.trans ((compile_eq_error_iff o hvalid).mpr hhead))
  rw [problems_reservedAngle, hset] at hright
  -- what is left to report is a qubit without a name, not an angle without a value
  rw [List.nil_append, List.head?_map] at hright
  obtain ⟨q, -, hq⟩ := Option.map_eq_some_iff.mp hright
  cases hq

/-- Inputs are defaults for the whole circuit. The program of a circuit, or the error, is that of
the circuit without its inputs under substitutions that give every name its last input, overridden
by the substitutions of the backend, where inputs of the reserved name do not count; so where an
input stands makes no difference unless another becomes the last of its name. With all inputs
counting, the same holds of every circuit with these inputs exactly if none has the reserved name or
that name is substituted. -/
theorem compile_inputs (o : Options) :
    (∀ ops given, Overrides o.substitutions (kept (inputs ops)) given → ∀ symbolic,
      compile o ops symbolic =
        compile { o with substitutions := given } (withoutInputs ops) symbolic) ∧
    (∀ ops ops', withoutInputs ops = withoutInputs ops' →
      (∀ name, lastValue (inputs ops) name = lastValue (inputs ops') name) → ∀ symbolic,
      compile o ops symbolic = compile o ops' symbolic) ∧
    ∀ values : List (String × Float),
      (∀ ops given, inputs ops = values → Overrides o.substitutions values given → ∀ symbolic,
        compile o ops symbolic =
          compile { o with substitutions := given } (withoutInputs ops) symbolic) ↔
      (Metadata.reservedName ∈ values.map Prod.fst →
        Metadata.reservedName ∈ o.substitutions.map Prod.fst) := by
  refine ⟨fun ops given h symbolic => compile_of_overrides h symbolic,
    fun ops ops' hothers hlast symbolic => compile_of_lastValue o hothers hlast symbolic, ?_⟩
  intro values
  constructor
  · intro hdefaults hreserved
    by_contra hnot
    obtain ⟨x, hx⟩ := exists_lastValue hreserved
    have hunset := lastValue_eq_none_iff.mpr hnot
    -- a circuit of these inputs and a rotation by the reserved name
    have heq := hdefaults (Operation.ofInputs values ++ [reservedAngle]) _
      (Operation.inputs_ofInputs_append values [reservedAngle] (by decide +kernel))
      (overrides_append _ _) false
    rw [compile_of_overrides (overrides_append _ _),
      Operation.withoutInputs_ofInputs_append values [reservedAngle] (by decide +kernel)] at heq
    refine compile_reservedAngle_ne (o := { o with substitutions := _ }) (x := x) ?_ ?_ heq
    · rw [lastValue_append, hunset, lastValue_kept, if_pos rfl]
      rfl
    · rw [lastValue_append, hunset, hx]
      rfl
  · intro hreserved ops given hvalues hgiven symbolic
    subst hvalues
    refine compile_of_overrides (fun name => ?_) symbolic
    rw [hgiven name, lastValue_kept]
    split
    next hname =>
      subst hname
      by_cases hvalue : Metadata.reservedName ∈ (inputs ops).map Prod.fst
      · obtain ⟨x, hx⟩ := exists_lastValue (hreserved hvalue)
        rw [hx]
        rfl
      · rw [lastValue_eq_none_iff.mpr hvalue]
    next => rfl

def twoNames : List Operation :=
  [.input "t" 1, .gate (.rotation .x 0 (.expression "t+u")), .input "t" 2, .input "u" 3]

/-- The last input of one name counts, and the other name is substituted. -/
theorem compile_inputs_twoNames :
    Overrides [("u", 4)] (inputs twoNames) [("u", 4), ("t", 2)] ∧
      compile ⟨"q", none, none, [("u", 4)]⟩ twoNames false =
        compile ⟨"q", none, none, [("u", 4), ("t", 2)]⟩ (withoutInputs twoNames) false ∧
      (compile ⟨"q", none, none, [("u", 4)]⟩ twoNames false).map Output.text =
        .ok "OPENQASM 2.0;\ninclude \"qelib1.inc\";\nqreg q[1];\nrx(6.0) q[0];\n" := by
  have hgiven : Overrides [("u", 4)] (inputs twoNames) [("u", 4), ("t", 2)] := by
    intro name
    have hinputs : inputs twoNames = [("t", 1), ("t", 2), ("u", 3)] := rfl
    rw [hinputs]
    by_cases ht : "t" = name
    · subst ht
      simp [lastValue]
    · by_cases hu : "u" = name
      · subst hu
        simp [lastValue]
      · simp [lastValue, ht, hu]
  refine ⟨hgiven, ?_, by decide +kernel⟩
  exact ((compile_inputs ⟨"q", none, none, [("u", 4)]⟩).2.2 (inputs twoNames)).mpr
    (by decide +kernel) twoNames _ rfl hgiven false

def reservedInput : List Operation :=
  [.input Metadata.reservedName 1, reservedAngle]

/-- The value of the input is lost; as a substitution it is not. -/
theorem compile_reservedInput :
    Overrides [] (inputs reservedInput) [(Metadata.reservedName, 1)] ∧
      compile .default reservedInput false =
        .error (.line (.parameter
          ⟨Metadata.reservedName, .expr (.unset Metadata.reservedName)⟩)) ∧
      (compile { Options.default with substitutions := [(Metadata.reservedName, 1)] }
        (withoutInputs reservedInput) false).map Output.text =
        .ok "OPENQASM 2.0;\ninclude \"qelib1.inc\";\nqreg q[1];\nrx(1.0) q[0];\n" :=
  ⟨fun name => by rfl, by decide +kernel, by decide +kernel⟩

end Backend

end OpenQasm

import OpenQasm.Proofs.Backend.Pipeline
import OpenQasm.Proofs.Source.Clauses
import OpenQasm.Proofs.Source.Layout
import OpenQasm.Proofs.Success
import OpenQasm.Proofs.Table

/-!
# What statements do to a scope

Everything that a statement can do is said once, by `Scope.Outcome`: it advances the scope, or it
is refused with its line, or the circuit refuses its operation. What a run preserves follows from
what such a step preserves. `Scope.Models` is the invariant of all runs: the tables of a scope hold
what the clauses of the statements so far declare.
-/
namespace OpenQasm.Source

open OpenQasm.Text
open Number (isNatural isPositive)

/-- A gate on given qubits, which differ if there are two. -/
inductive GateOn : List Float → Operation → Prop
  | rotation (axis : Axis) (q : Float) (theta : Parameter) :
      GateOn [q] (.gate (.rotation axis q theta))
  | fixed (gate : FixedGate) (q : Float) : GateOn [q] (.gate (.fixed gate q))
  | pair (gate : PairGate) {c t : Float} (h : (c == t) = false) :
      GateOn [c, t] (.gate (.pair gate c t))
  | column {g : ColumnGate} {q : Float} (h : g.qubit = q) : GateOn [q] (.column g)

theorem GateOn.qubits_eq {qubits : List Float} {op : Operation} (h : GateOn qubits op) :
    op.qubits = qubits := by
  cases h with
  | rotation => rfl
  | fixed => rfl
  | pair => rfl
  | column h => rw [← h]; rfl

theorem GateOn.definition? {qubits : List Float} {op : Operation} (h : GateOn qubits op) :
    op.definition? = none := by
  cases h <;> rfl

namespace Scope

/-- The operation of a gate statement: that of a `u3` gate, or a gate of the first kind that the
statement fits, on qubits that are all different. -/
theorem operation_ok {mnemonic : String} {parameters : List (List Char)} {qubits : List Float}
    {op : Operation} (h : operation mnemonic parameters qubits = .ok op) :
    (mnemonic = "u3" ∧ ∃ g : ColumnGate, qubits = [g.qubit] ∧ op = .column g) ∨
    (hasRepeats qubits = false ∧ ∃ kind values g,
      (kindsOf mnemonic).find? (fun kind => fits kind.rule parameters qubits.length) = some kind ∧
      (parameters.take kind.rule.parameters.length).mapM parameter = .ok values ∧
      gate? kind qubits values = some g ∧ op = .gate g) := by
  unfold operation at h
  split_ifs at h with hgeneral hrepeats
  · split at h
    next theta phi lambda qubit =>
      obtain ⟨x, -, h⟩ := exists_of_bind_ok h
      obtain ⟨y, -, h⟩ := exists_of_bind_ok h
      obtain ⟨z, -, h⟩ := exists_of_bind_ok h
      cases h
      exact .inl ⟨by simpa using hgeneral, _, rfl, rfl⟩
    next => cases h
  · dsimp only at h
    split at h
    next => cases h
    next kind hkind =>
      obtain ⟨values, hvalues, h⟩ := exists_of_bind_ok h
      split at h
      next g hgate =>
        cases h
        exact .inr ⟨by simpa using hrepeats, kind, values, g, hkind, hvalues, hgate, rfl⟩
      next => cases h

theorem gateOn_of_operation {mnemonic : String} {parameters : List (List Char)}
    {qubits : List Float} {op : Operation} (h : operation mnemonic parameters qubits = .ok op) :
    GateOn qubits op := by
  obtain ⟨-, g, rfl, rfl⟩ | ⟨hrepeats, kind, values, g, -, -, hgate, rfl⟩ := operation_ok h
  · exact .column rfl
  · unfold gate? at hgate
    split at hgate
    next axis q theta =>
      cases hgate
      exact .rotation axis q theta
    next gate q =>
      cases hgate
      exact .fixed gate q
    next gate c t =>
      cases hgate
      have hkeys : Number.sameKey c t = false := by simpa [hasRepeats] using hrepeats
      rw [Number.sameKey, Bool.or_eq_false_iff] at hkeys
      exact .pair gate hkeys.1
    next => cases hgate

/-- The number of an element of a qubit register. -/
inductive Numbers (s : Scope) : String × ℕ → Float → Prop
  | intro {name : String} {i : ℕ} {register : QubitRegister}
      (hregister : s.qubitRegisters.get? name = some register)
      (hinside : ¬ Float.ofNat i ≥ register.size) :
      Numbers s (name, i) (register.offset + Float.ofNat i)

/-- An element of a bit register. -/
inductive HasBit (s : Scope) : String × ℕ → Prop
  | intro {name : String} {i : ℕ} {size : Float} (hsize : s.bitRegisters.get? name = some size)
      (hinside : ¬ Float.ofNat i ≥ size) : HasBit s (name, i)

theorem qubit_eq_ok_iff {s : Scope} {cs : List Char} {q : Float} :
    s.qubit cs = .ok q ↔ ∃ e, element? cs = some e ∧ s.Numbers e q := by
  unfold qubit
  rw [indexed?_eq_map]
  constructor
  · intro h
    cases he : element? cs with
    | none =>
        rw [he] at h
        cases h
    | some e =>
        simp only [he, Option.map_some] at h
        split at h
        next => cases h
        next register hregister =>
          split_ifs at h with hinside
          cases h
          exact ⟨e, rfl, .intro hregister hinside⟩
  · rintro ⟨e, he, hregister, hinside⟩
    simp only [he, Option.map_some, hregister, if_neg hinside]

theorem bit_eq_ok_iff {s : Scope} {cs : List Char} {name : String} {x : Float} :
    s.bit cs = .ok (name, x) ↔
      ∃ i, element? cs = some (name, i) ∧ s.HasBit (name, i) ∧ x = Float.ofNat i := by
  unfold bit
  rw [indexed?_eq_map]
  constructor
  · intro h
    cases he : element? cs with
    | none =>
        rw [he] at h
        cases h
    | some e =>
        simp only [he, Option.map_some] at h
        split at h
        next => cases h
        next size hsize =>
          split_ifs at h with hinside
          cases h
          exact ⟨e.2, rfl, .intro hsize hinside, rfl⟩
  · rintro ⟨i, he, ⟨hsize, hinside⟩, rfl⟩
    simp only [he, Option.map_some, hsize, if_neg hinside]

/-- What a statement with a given clause adds to the circuit, declarations apart. -/
inductive Performs (s : Scope) : Clause → Operation → Prop
  | single {qubit bit : String × ℕ} {q : Float} (hqubit : s.Numbers qubit q) (hbit : s.HasBit bit) :
      Performs s (.single qubit bit) (.measure ⟨q, bit.1, Float.ofNat bit.2⟩)
  | whole {source target : String} (hsource : source ∈ s.qubitRegisters.keys)
      (htarget : target ∈ s.bitRegisters.keys) :
      Performs s (.whole source target) (.measureRepeatedly ⟨target, 1, none⟩)
  | gate {qubits : List Float} {op : Operation} (hgate : GateOn qubits op)
      (hqubits : ∀ q ∈ qubits, ∃ e, s.Numbers e q) : Performs s .other op

theorem Performs.numbers {s : Scope} {clause : Clause} {op : Operation}
    (h : s.Performs clause op) : ∀ q ∈ op.qubits, ∃ e, s.Numbers e q := by
  intro q hq
  cases h with
  | single hqubit =>
      cases List.mem_singleton.mp hq
      exact ⟨_, hqubit⟩
  | whole => cases hq
  | gate hgate hqubits =>
      rw [hgate.qubits_eq] at hq
      exact hqubits q hq

theorem Performs.definition? {s : Scope} {clause : Clause} {op : Operation}
    (h : s.Performs clause op) : op.definition? = none := by
  cases h with
  | single => rfl
  | whole => rfl
  | gate hgate => exact hgate.definition?

theorem Performs.register? {s : Scope} {clause : Clause} {op : Operation}
    (h : s.Performs clause op) (isQubit : Bool) : clause.register? isQubit = none := by
  cases h <;> rfl

theorem performs_measurement {s : Scope} {source target : List Char} {op : Operation}
    (h : s.measurement source target = .ok op) : s.Performs (.ofSides source target) op := by
  unfold measurement at h
  split_ifs at h with hnames hsource htarget
  · -- a bare name is no element, so both sides are read as whole registers
    cases h
    rw [Bool.and_eq_true] at hnames
    have hclause : Clause.ofSides source target =
        .whole (String.ofList source) (String.ofList target) := by
      rw [Clause.ofSides, element?_of_isName hnames.1, hnames.1, hnames.2]
      rfl
    rw [hclause]
    exact .whole (Table.contains_iff.mp (by simpa using hsource))
      (Table.contains_iff.mp (by simpa using htarget))
  · obtain ⟨q, hqubit, h⟩ := exists_of_bind_ok h
    obtain ⟨⟨readout, index⟩, hbit, h⟩ := exists_of_bind_ok h
    cases h
    obtain ⟨e, he, hnumber⟩ := qubit_eq_ok_iff.mp hqubit
    obtain ⟨i, hi, hhas, rfl⟩ := bit_eq_ok_iff.mp hbit
    rw [Clause.ofSides, he, hi]
    exact .single hnumber hhas

theorem performs_apply {s : Scope} {mnemonic : String} {parameters operands : List (List Char)}
    {op : Operation}
    (h : (do
      let qubits ← operands.mapM s.qubit
      operation mnemonic parameters qubits) = .ok op) : s.Performs .other op := by
  obtain ⟨qubits, hqubits, hop⟩ := exists_of_bind_ok h
  refine .gate (gateOn_of_operation hop) (fun q hq => ?_)
  obtain ⟨cs, -, hcs⟩ := exists_of_mem_mapM hqubits hq
  obtain ⟨e, -, he⟩ := qubit_eq_ok_iff.mp hcs
  exact ⟨e, he⟩

def push (s : Scope) (op : Operation) : Scope :=
  { s with circuit := { s.circuit with operations := s.circuit.operations ++ [op] } }

@[simp] theorem operations_push (s : Scope) (op : Operation) :
    (s.push op).circuit.operations = s.circuit.operations ++ [op] :=
  rfl

def bitDeclaration (r : String × ℕ) : Declaration :=
  ⟨.bit, r.1, Float.ofNat r.2, true⟩

def IsFree (s : Scope) (name : String) : Prop :=
  name ∉ s.qubitRegisters.keys ∧ name ∉ s.bitRegisters.keys

theorem isFree_iff {s : Scope} {name : String} :
    s.IsFree name ↔
      ¬ (s.qubitRegisters.contains name || s.bitRegisters.contains name) = true := by
  rw [Bool.or_eq_true, Table.contains_iff, Table.contains_iff, not_or]
  rfl

/-- How a statement with a given clause changes a scope. -/
inductive Advances (s : Scope) : Clause → Scope → Prop
  | version : Advances s .other { s with hasVersion := true }
  | skip : Advances s .other s
  | qubits {r : String × ℕ} (hfree : s.IsFree r.1) (hsize : ¬ Float.ofNat r.2 < 1) :
      Advances s (.register true r.1 r.2)
        { s with
          qubitRegisters := s.qubitRegisters.insert r.1 ⟨s.qubitCount, Float.ofNat r.2⟩
          qubitCount := s.qubitCount + Float.ofNat r.2 }
  | bits {r : String × ℕ} (hfree : s.IsFree r.1) (hsize : isPositive (Float.ofNat r.2) = true) :
      Advances s (.register false r.1 r.2)
        { s with
          bitRegisters := s.bitRegisters.insert r.1 (Float.ofNat r.2)
          circuit := (s.push (.define (bitDeclaration r))).circuit }
  | perform {clause : Clause} {op : Operation} (h : s.Performs clause op)
      (hnatural : ∀ q ∈ op.qubits, isNatural q = true) : Advances s clause (s.push op)

theorem Advances.register {s s' : Scope} {clause : Clause} (hstep : s.Advances clause s')
    {name : String} {register : QubitRegister}
    (h : s.qubitRegisters.get? name = some register) :
    s'.qubitRegisters.get? name = some register := by
  cases hstep with
  | qubits hfree =>
      rw [Table.get?_insert_of_ne, h]
      rintro rfl
      rw [Table.get?_eq_none_iff.mpr hfree.1] at h
      cases h
  | _ => exact h

theorem Advances.numbers {s s' : Scope} {clause : Clause} (hstep : s.Advances clause s')
    {e : String × ℕ} {q : Float} (h : s.Numbers e q) : s'.Numbers e q := by
  obtain ⟨hregister, hinside⟩ := h
  exact .intro (hstep.register hregister) hinside

/-- Why the circuit refuses what a statement with a given clause adds. -/
inductive Refuses (s : Scope) : Clause → Circuit.Error → Prop
  | length {name : String} {size : ℕ} (hpositive : ¬ Float.ofNat size < 1)
      (h : isPositive (Float.ofNat size) = false) :
      Refuses s (.register false name size) (.invalidLength name (Float.ofNat size))
  | defined {name : String} {size : ℕ} (hfree : s.IsFree name)
      (h : s.circuit.definitions.any (fun d => d.name == name) = true) :
      Refuses s (.register false name size) (.alreadyDefined name)
  | qubit {clause : Clause} {e : String × ℕ} {q : Float} (he : s.Numbers e q)
      (h : isNatural q = false) : Refuses s clause (.invalidQubit q)

/-- All that a statement on a given line with a given clause can do. -/
inductive Outcome (s : Scope) (line : ℕ) (clause : Clause) : Except Error Scope → Prop
  | advances {s' : Scope} (h : s.Advances clause s') : Outcome s line clause (.ok s')
  | fault (f : Fault) : Outcome s line clause (.error (.at line f))
  | refuses {e : Circuit.Error} (h : s.Refuses clause e) :
      Outcome s line clause (.error (.circuit e))

theorem emit_outcome {s : Scope} {clause : Clause} {op : Except Fault Operation}
    (h : ∀ o, op = .ok o → s.Performs clause o) (line : ℕ) :
    s.Outcome line clause (s.emit line op) := by
  unfold emit
  split
  next f => exact .fault f
  next o =>
    have hperforms := h o rfl
    split
    next c hadd =>
      obtain ⟨hnatural, rfl⟩ := Circuit.add_ok hadd
      exact .advances (.perform hperforms hnatural)
    next e hadd =>
      obtain ⟨q, hq, hnot, rfl⟩ := Circuit.add_error hadd
      obtain ⟨e, he⟩ := hperforms.numbers q hq
      exact .refuses (.qubit he hnot)

theorem defineBits_outcome {s : Scope} {r : String × ℕ} (hfree : s.IsFree r.1)
    (hempty : ¬ Float.ofNat r.2 < 1) (line : ℕ) :
    s.Outcome line (.register false r.1 r.2)
      (match s.circuit.build (.define (bitDeclaration r)) with
      | .ok circuit =>
          .ok { s with bitRegisters := s.bitRegisters.insert r.1 (Float.ofNat r.2), circuit }
      | .error e => .error (.circuit e)) := by
  cases hpositive : isPositive (Float.ofNat r.2) with
  | false =>
      have hbuild : s.circuit.build (.define (bitDeclaration r)) =
          .error (.invalidLength r.1 (Float.ofNat r.2)) := by
        simp only [Circuit.build, Circuit.check, bitDeclaration, hpositive]
        rfl
      rw [hbuild]
      exact .refuses (.length hempty hpositive)
  | true =>
      cases hnew : s.circuit.definitions.any (fun d => d.name == r.1) with
      | true =>
          have hbuild : s.circuit.build (.define (bitDeclaration r)) =
              .error (.alreadyDefined r.1) := by
            simp only [Circuit.build, Circuit.check, bitDeclaration, hpositive, hnew]
            rfl
          rw [hbuild]
          exact .refuses (.defined hfree hnew)
      | false =>
          rw [Circuit.build_define (d := bitDeclaration r) hpositive hnew]
          exact .advances (.bits hfree hpositive)

theorem declare_outcome (s : Scope) (line : ℕ) (isQubit : Bool) (r : String × ℕ) :
    s.Outcome line (.register isQubit r.1 r.2)
      (s.declare line isQubit r.1 (Float.ofNat r.2)) := by
  unfold declare
  split_ifs with htwice hempty hqubit
  · exact .fault _
  · exact .fault _
  · subst hqubit
    exact .advances (.qubits (isFree_iff.mpr htwice) hempty)
  · cases Bool.eq_false_of_not_eq_true hqubit
    exact defineBits_outcome (isFree_iff.mpr htwice) hempty line

/-- Every statement has one of the outcomes, with the clause that its text spells. -/
theorem step_outcome (s : Scope) (st : Statement) :
    s.Outcome st.line (.ofText st.text) (s.step st) := by
  unfold step
  dsimp only
  split
  next version hcommand =>
    have hclause : Clause.ofText st.text = .other := by rw [Clause.ofText, hcommand]
    rw [hclause]
    split_ifs
    · exact .fault _
    · exact .fault _
    · exact .advances .version
  next command hversion =>
    split_ifs with h
    · exact .fault _
    · split
      next isQubit name size hcommand =>
        obtain ⟨n, hspells, rfl⟩ := spells_of_declare hcommand
        rw [hspells.ofText_eq (by simp)]
        exact declare_outcome s st.line isQubit (name, n)
      next source target hcommand =>
        have hclause : Clause.ofText st.text = .ofSides source target := by
          rw [Clause.ofText, hcommand]
        rw [hclause]
        exact emit_outcome (fun _ => performs_measurement) st.line
      next mnemonic parameters operands hcommand =>
        have hclause : Clause.ofText st.text = .other := by rw [Clause.ofText, hcommand]
        rw [hclause]
        split_ifs
        · exact .fault _
        · exact emit_outcome (fun _ => performs_apply) st.line
      next => exact .fault _
      next hdeclare hmeasure happly hunknown =>
        have hclause : Clause.ofText st.text = .other := by
          unfold Clause.ofText
          split
          next hcommand => exact absurd hcommand (hdeclare _ _ _)
          next hcommand => exact absurd hcommand (hmeasure _ _)
          next => rfl
        rw [hclause]
        exact .advances .skip

theorem run_ok_induction {P : Scope → List Clause → Prop}
    (hstep : ∀ {s s' : Scope} {clauses : List Clause} {clause : Clause},
      P s clauses → s.Advances clause s' → P s' (clauses ++ [clause]))
    {s s' : Scope} {clauses : List Clause} {sts : List Statement} (h : P s clauses)
    (hrun : s.run sts = .ok s') :
    P s' (clauses ++ sts.map (fun st => .ofText st.text)) := by
  induction sts generalizing s clauses with
  | nil =>
      cases hrun
      rwa [List.map_nil, List.append_nil]
  | cons st sts ih =>
      rw [run] at hrun
      obtain ⟨s₁, hs₁, hrun⟩ := exists_of_bind_ok hrun
      have houtcome := step_outcome s st
      rw [hs₁] at houtcome
      cases houtcome with
      | advances hadvances =>
          have hrest := ih (hstep h hadvances) hrun
          rwa [List.append_assoc] at hrest

/-- A run that fails does so at one statement, in the scope that the ones before it lead to. -/
theorem exists_of_run_error {s : Scope} {sts : List Statement} {e : Error}
    (h : s.run sts = .error e) :
    ∃ before st after s', sts = before ++ st :: after ∧ s.run before = .ok s' ∧
      s'.step st = .error e := by
  induction sts generalizing s with
  | nil => cases h
  | cons st sts ih =>
      rw [run] at h
      cases hs : s.step st with
      | error e' =>
          rw [hs] at h
          cases h
          exact ⟨[], st, sts, s, rfl, rfl, hs⟩
      | ok s₁ =>
          rw [hs] at h
          obtain ⟨before, st', after, s', rfl, hbefore, hstep⟩ := ih h
          refine ⟨st :: before, st', after, s', rfl, ?_, hstep⟩
          rw [run, hs]
          exact hbefore

/-- A scope that holds what clauses declare. -/
structure Models (s : Scope) (clauses : List Clause) : Prop where
  qubits : s.qubitRegisters.toList = placed 0 (registers true clauses)
  count : s.qubitCount = sumFrom 0 (registers true clauses)
  bits : s.bitRegisters.toList = (registers false clauses).map (fun r => (r.1, Float.ofNat r.2))
  definitions : s.circuit.definitions = (registers false clauses).map bitDeclaration
  qubitNames : ((registers true clauses).map Prod.fst).Nodup
  bitNames : ((registers false clauses).map Prod.fst).Nodup
  sizes : ∀ r ∈ registers true clauses, 0 < r.2
  lengths : ∀ r ∈ registers false clauses, isPositive (Float.ofNat r.2) = true

theorem models_empty : empty.Models [] where
  qubits := rfl
  count := rfl
  bits := rfl
  definitions := rfl
  qubitNames := List.nodup_nil
  bitNames := List.nodup_nil
  sizes _ hr := by cases hr
  lengths _ hr := by cases hr

namespace Models

variable {s s' : Scope} {clauses : List Clause} {clause : Clause}

theorem qubitKeys (h : s.Models clauses) :
    s.qubitRegisters.keys = (registers true clauses).map Prod.fst := by
  rw [Table.keys, h.qubits, names_placed]

theorem bitKeys (h : s.Models clauses) :
    s.bitRegisters.keys = (registers false clauses).map Prod.fst := by
  rw [Table.keys, h.bits, List.map_map]
  rfl

theorem keep (h : s.Models clauses) (hclause : ∀ isQubit, clause.register? isQubit = none)
    (hqubits : s'.qubitRegisters = s.qubitRegisters) (hcount : s'.qubitCount = s.qubitCount)
    (hbits : s'.bitRegisters = s.bitRegisters)
    (hdefinitions : s'.circuit.definitions = s.circuit.definitions) :
    s'.Models (clauses ++ [clause]) := by
  have hregisters (isQubit : Bool) :
      registers isQubit (clauses ++ [clause]) = registers isQubit clauses := by
    rw [registers_concat, hclause, Option.toList_none, List.append_nil]
  constructor
  all_goals simp only [hregisters]
  · rw [hqubits, h.qubits]
  · rw [hcount, h.count]
  · rw [hbits, h.bits]
  · rw [hdefinitions, h.definitions]
  · exact h.qubitNames
  · exact h.bitNames
  · exact h.sizes
  · exact h.lengths

theorem nodup_names_concat {rs : List (String × ℕ)} {r : String × ℕ}
    (h : (rs.map Prod.fst).Nodup) (hnew : r.1 ∉ rs.map Prod.fst) :
    ((rs ++ [r]).map Prod.fst).Nodup := by
  rw [List.map_append, List.map_singleton, ← List.concat_eq_append]
  exact h.concat hnew

/-- The invariant is kept by every statement that is carried out. -/
theorem advances (h : s.Models clauses) (hstep : s.Advances clause s') :
    s'.Models (clauses ++ [clause]) := by
  cases hstep with
  | version => exact h.keep (fun _ => rfl) rfl rfl rfl rfl
  | skip => exact h.keep (fun _ => rfl) rfl rfl rfl rfl
  | perform hperforms hnatural =>
      refine h.keep hperforms.register? rfl rfl rfl ?_
      unfold push Circuit.definitions Declaration.collect
      rw [List.filterMap_append, List.filterMap_cons_none hperforms.definition?, List.filterMap_nil,
        List.append_nil]
  | @qubits r hfree hsize =>
      have htrue : registers true (clauses ++ [.register true r.1 r.2]) =
          registers true clauses ++ [r] := registers_concat true clauses _
      have hfalse : registers false (clauses ++ [.register true r.1 r.2]) =
          registers false clauses := by
        rw [registers_concat]
        exact List.append_nil _
      have hnew : r.1 ∉ (registers true clauses).map Prod.fst := h.qubitKeys ▸ hfree.1
      have hpos : 0 < r.2 := by
        by_contra hzero
        rw [Nat.eq_zero_of_not_pos hzero] at hsize
        exact hsize (by decide)
      constructor
      all_goals simp only [htrue, hfalse]
      · rw [Table.toList_insert_of_not_mem hfree.1, h.qubits, placed_concat, h.count]
      · rw [sumFrom_concat, h.count]
      · exact h.bits
      · exact h.definitions
      · exact nodup_names_concat h.qubitNames hnew
      · exact h.bitNames
      · exact List.forall_mem_append.mpr ⟨h.sizes, List.forall_mem_singleton.mpr hpos⟩
      · exact h.lengths
  | @bits r hfree hsize =>
      have htrue : registers true (clauses ++ [.register false r.1 r.2]) =
          registers true clauses := by
        rw [registers_concat]
        exact List.append_nil _
      have hfalse : registers false (clauses ++ [.register false r.1 r.2]) =
          registers false clauses ++ [r] := registers_concat false clauses _
      have hnew : r.1 ∉ (registers false clauses).map Prod.fst := h.bitKeys ▸ hfree.2
      constructor
      all_goals simp only [htrue, hfalse]
      · exact h.qubits
      · exact h.count
      · rw [Table.toList_insert_of_not_mem hfree.2, h.bits, List.map_append]
        rfl
      · rw [List.map_append, ← h.definitions]
        exact List.filterMap_append
      · exact h.qubitNames
      · exact nodup_names_concat h.bitNames hnew
      · exact h.sizes
      · exact List.forall_mem_append.mpr ⟨h.lengths, List.forall_mem_singleton.mpr hsize⟩

end Models

end Scope

def clauses (source : String) : List Clause :=
  (statements source.toList).1.map (fun st => .ofText st.text)

theorem exists_scope {source : String} {result : Result} (h : read source = .ok result) :
    ∃ s : Scope, Scope.empty.run (statements source.toList).1 = .ok s ∧
      result = ⟨s.circuit, s.qubitCount⟩ := by
  unfold read at h
  obtain ⟨s, hrun, h⟩ := exists_of_bind_ok h
  refine ⟨s, hrun, ?_⟩
  split at h
  next => cases h
  next =>
    split_ifs at h
    cases h
    rfl

/-- What holds at the start and is kept by every statement holds of what is read. -/
theorem read_induction {P : Scope → List Clause → Prop} (hempty : P .empty [])
    (hstep : ∀ {s s' : Scope} {clauses : List Clause} {clause : Clause},
      P s clauses → s.Advances clause s' → P s' (clauses ++ [clause]))
    {source : String} {s : Scope} (h : Scope.empty.run (statements source.toList).1 = .ok s) :
    P s (clauses source) :=
  Scope.run_ok_induction hstep hempty h

end OpenQasm.Source

import OpenQasm.Proofs.Failure
import OpenQasm.Proofs.Source.Scoping

/-!
# What programs measure

The statements of a program say which qubit is measured into which bit, and so do the operations of
the circuit that is read. They agree exactly if a register that is measured as a whole is the only
one, and no index of a bit is rounded: the operation for a whole register measures all qubits.
-/
namespace OpenQasm.Source

open Number (value)

/-- Blocks that are never longer on the left than on the right make up the same list only if each of
them is the same. -/
theorem flatMap_eq_flatMap_iff {α β γ : Type} {R : α → β → Prop} {P : α → Prop} {f : α → List γ}
    {g : β → List γ} {as : List α} {bs : List β}
    (hR : ∀ a b, R a b → (f a).length ≤ (g b).length ∧ (f a = g b ↔ P a))
    (h : List.Forall₂ R as bs) : as.flatMap f = bs.flatMap g ↔ ∀ a ∈ as, P a := by
  have hlength {as : List α} {bs : List β} (h : List.Forall₂ R as bs) :
      (as.flatMap f).length ≤ (bs.flatMap g).length := by
    induction h with
    | nil => exact le_rfl
    | cons hab hrest ih =>
        rw [List.flatMap_cons, List.flatMap_cons, List.length_append, List.length_append]
        exact Nat.add_le_add (hR _ _ hab).1 ih
  induction h with
  | nil => simp
  | @cons a b as bs hab hrest ih =>
      rw [List.flatMap_cons, List.flatMap_cons, List.forall_mem_cons]
      refine Iff.trans ?_ (and_congr (hR _ _ hab).2 ih)
      constructor
      · intro heq
        have hsum := congrArg List.length heq
        rw [List.length_append, List.length_append] at hsum
        have hle := (hR _ _ hab).1
        have hrestle := hlength hrest
        exact List.append_inj heq (by omega)
      · rintro ⟨hfirst, hlast⟩
        rw [hfirst, hlast]

/-- What a clause measures, with the given qubit registers: the number of a qubit, and the register
and the index of a bit. -/
def Clause.measured (rs : List (String × ℕ)) : Clause → List (ℚ × String × ℚ)
  | single qubit bit => [((number rs qubit : ℚ), bit.1, (bit.2 : ℚ))]
  | whole source target =>
      (List.range ((rs.lookup source).getD 0)).map
        (fun i : ℕ => ((number rs (source, i) : ℚ), target, (i : ℚ)))
  | _ => []

/-- What an operation measures if there are `n` qubits. -/
def measuredBy (n : ℕ) : Operation → List (ℚ × String × ℚ)
  | .measure m => [(value m.qubit, m.readout, value m.index)]
  | .measureRepeatedly ⟨readout, _, none⟩ =>
      (List.range n).map (fun i : ℕ => ((i : ℚ), readout, (i : ℚ)))
  | _ => []

def Clause.isMeasurement : Clause → Bool
  | single _ _ => true
  | whole _ _ => true
  | _ => false

theorem Clause.measured_eq_nil (rs : List (String × ℕ)) (clause : Clause)
    (h : clause.isMeasurement = false) : clause.measured rs = [] := by
  cases clause with
  | single => cases h
  | whole => cases h
  | register => rfl
  | other => rfl

theorem measuredBy_eq_nil (n : ℕ) (op : Operation) (h : Circuit.isMeasurement op = false) :
    measuredBy n op = [] := by
  cases op with
  | measure => cases h
  | measureRepeatedly => cases h
  | _ => rfl

theorem GateOn.isMeasurement {qubits : List Float} {op : Operation} (h : GateOn qubits op) :
    Circuit.isMeasurement op = false := by
  cases h <;> rfl

/-- What a clause measures is not lost: the index of its bit is not rounded, or the register that it
measures as a whole is the only one. -/
def Clause.IsKept (rs : List (String × ℕ)) : Clause → Prop
  | single _ bit => value (Float.ofNat bit.2) = bit.2
  | whole source _ => ∀ r ∈ rs, r.1 = source
  | _ => True

theorem add_le_total {rs : List (String × ℕ)} {r r' : String × ℕ} (h : r ∈ rs) (h' : r' ∈ rs)
    (hne : r ≠ r') : r.2 + r'.2 ≤ total rs := by
  induction rs with
  | nil => cases h
  | cons r₁ rs ih =>
      rw [total_cons]
      rcases List.mem_cons.mp h with rfl | hr <;> rcases List.mem_cons.mp h' with rfl | hr'
      · exact absurd rfl hne
      · exact Nat.add_le_add_left (le_total hr') _
      · rw [Nat.add_comm]
        exact Nat.add_le_add_left (le_total hr) _
      · exact (ih hr hr').trans (Nat.le_add_left _ _)

/-- Measuring a register is measuring all qubits exactly if there is no other register. -/
theorem measured_whole_eq_iff {rs : List (String × ℕ)} {source : String} {size : ℕ}
    (hnodup : (rs.map Prod.fst).Nodup) (hpos : ∀ r ∈ rs, 0 < r.2) (hmem : (source, size) ∈ rs)
    (target : String) :
    (Clause.whole source target).measured rs =
        measuredBy (total rs) (.measureRepeatedly ⟨target, 1, none⟩) ↔
      ∀ r ∈ rs, r.1 = source := by
  have hlookup : rs.lookup source = some size := Table.get?_of_mem (t := ⟨rs⟩) hnodup hmem
  simp only [Clause.measured, measuredBy, hlookup, Option.getD_some]
  constructor
  · intro heq r hr
    have hsize : size = total rs := by simpa using congrArg List.length heq
    by_contra hne
    have hle := add_le_total hmem hr (by rintro rfl; exact hne rfl)
    have := hpos r hr
    dsimp only at hle
    omega
  · intro hall
    -- distinct names that are all the same leave one register
    have hsingle : rs = [(source, size)] := by
      match rs, hnodup, hmem with
      | [r], _, hmem => rw [List.mem_singleton.mp hmem]
      | r :: r' :: rest, hnodup, _ =>
          have hsame : r.1 = r'.1 := (hall r (.head _)).trans (hall r' (.tail _ (.head _))).symm
          rw [List.map_cons, List.map_cons, hsame, List.nodup_cons] at hnodup
          exact absurd (.head _) hnodup.1
    subst hsingle
    simp [number, total]

namespace Scope

/-- The operation of a clause that measures. -/
inductive Records (s : Scope) : Clause → Operation → Prop
  | single {qubit bit : String × ℕ} {q : Float} (hqubit : s.Numbers qubit q) :
      Records s (.single qubit bit) (.measure ⟨q, bit.1, Float.ofNat bit.2⟩)
  | whole {source target : String} {register : QubitRegister}
      (hsource : s.qubitRegisters.get? source = some register) :
      Records s (.whole source target) (.measureRepeatedly ⟨target, 1, none⟩)

theorem Records.advances {s s' : Scope} {clause : Clause} (hstep : s.Advances clause s')
    {clause' : Clause} {op : Operation} (h : s.Records clause' op) : s'.Records clause' op := by
  cases h with
  | single hqubit => exact .single (hstep.numbers hqubit)
  | whole hsource => exact .whole (hstep.register hsource)

/-- The measurements of a circuit are those of the clauses, in the same order. -/
def Recorded (s : Scope) (clauses : List Clause) : Prop :=
  List.Forall₂ s.Records (clauses.filter Clause.isMeasurement)
    (s.circuit.operations.filter Circuit.isMeasurement)

theorem Recorded.advances {s s' : Scope} {clauses : List Clause} {clause : Clause}
    (h : s.Recorded clauses) (hstep : s.Advances clause s') :
    s'.Recorded (clauses ++ [clause]) := by
  have hkept : List.Forall₂ s'.Records (clauses.filter Clause.isMeasurement)
      (s.circuit.operations.filter Circuit.isMeasurement) :=
    h.imp (fun _ _ => Records.advances hstep)
  unfold Recorded
  rw [List.filter_append]
  cases id hstep with
  | version => simpa [Clause.isMeasurement] using hkept
  | skip => simpa [Clause.isMeasurement] using hkept
  | qubits => simpa [Clause.isMeasurement] using hkept
  | bits => simpa [Clause.isMeasurement, Circuit.isMeasurement] using hkept
  | perform hperforms =>
      rw [operations_push, List.filter_append]
      cases hperforms with
      | single hqubit =>
          exact List.rel_append hkept (.cons (.single (hstep.numbers hqubit)) .nil)
      | whole hsource =>
          obtain ⟨register, hregister⟩ := Table.mem_keys_iff.mp hsource
          exact List.rel_append hkept (.cons (.whole (hstep.register hregister)) .nil)
      | gate hgate =>
          have hquiet : Circuit.isMeasurement _ = false := hgate.isMeasurement
          simpa [Clause.isMeasurement, hquiet] using hkept

theorem Records.measured {s : Scope} {clauses : List Clause} (hmodels : s.Models clauses)
    (hbound : total (registers true clauses) < 2 ^ 53) {clause : Clause} {op : Operation}
    (h : s.Records clause op) :
    (clause.measured (registers true clauses)).length ≤
        (measuredBy (total (registers true clauses)) op).length ∧
      (clause.measured (registers true clauses) = measuredBy (total (registers true clauses)) op ↔
        clause.IsKept (registers true clauses)) := by
  cases h with
  | @single qubit bit q hqubit =>
      obtain ⟨hmem, rfl⟩ := (hmodels.numbers_iff hbound).mp hqubit
      have hlt := Set.mem_Iio.mp (number_mapsTo hmodels.qubitNames hmem)
      have hvalue := Number.value_ofNat (hlt.trans hbound)
      refine ⟨le_rfl, ?_⟩
      simp only [Clause.measured, measuredBy, Clause.IsKept, hvalue, List.cons.injEq, Prod.mk.injEq,
        true_and, and_true]
      exact eq_comm
  | @whole source target register hsource =>
      have hkey := Table.mem_keys_iff.mpr ⟨register, hsource⟩
      rw [hmodels.qubitKeys] at hkey
      obtain ⟨⟨name, size⟩, hmem, rfl⟩ := List.mem_map.mp hkey
      refine ⟨?_, measured_whole_eq_iff hmodels.qubitNames hmodels.sizes hmem target⟩
      have hlookup : (registers true clauses).lookup name = some size :=
        Table.get?_of_mem (t := ⟨registers true clauses⟩) hmodels.qubitNames hmem
      simp only [Clause.measured, measuredBy, hlookup, Option.getD_some, List.length_map,
        List.length_range]
      exact le_total hmem

end Scope

/-- A program with at most `2 ^ 53 - 1` qubits and the circuit that is read from it measure the same
pairs of a qubit and a bit in the same order, exactly if every register that is measured as a whole
is the only one, and no index of a measured bit is rounded. -/
theorem read_measured_iff {source : String} {result : Result} (h : read source = .ok result)
    (hbound : total (registers true (clauses source)) ≤ 2 ^ 53 - 1) :
    (clauses source).flatMap (Clause.measured (registers true (clauses source))) =
        result.circuit.operations.flatMap (measuredBy (Number.countBelow result.qubitCount)) ↔
      (∀ r c, Clause.whole r c ∈ clauses source →
        ∀ register ∈ registers true (clauses source), register.1 = r) ∧
      ∀ qubit bit, Clause.single qubit bit ∈ clauses source →
        value (Float.ofNat bit.2) = bit.2 := by
  obtain ⟨s, hrun, rfl⟩ := exists_scope h
  have hmodels : s.Models (clauses source) :=
    read_induction Scope.models_empty Scope.Models.advances hrun
  have hrecorded : s.Recorded (clauses source) :=
    read_induction .nil Scope.Recorded.advances hrun
  have hlt : total (registers true (clauses source)) < 2 ^ 53 := by omega
  have hcount : Number.countBelow s.qubitCount = total (registers true (clauses source)) := by
    rw [hmodels.count_eq hlt]
    exact Number.countBelow_of_value (Number.isFinite_ofNat hlt) (Number.value_ofNat hlt)
  rw [hcount, ← flatMap_filter_of_nil (Clause.measured_eq_nil _),
    ← flatMap_filter_of_nil (measuredBy_eq_nil _), flatMap_eq_flatMap_iff (R := s.Records)
      (fun _ _ => Scope.Records.measured hmodels hlt) hrecorded]
  constructor
  · intro hkept
    constructor
    · intro r c hclause
      exact hkept _ (List.mem_filter.mpr ⟨hclause, rfl⟩)
    · intro qubit bit hclause
      exact hkept _ (List.mem_filter.mpr ⟨hclause, rfl⟩)
  · rintro ⟨hwhole, hsingle⟩ clause hclause
    obtain ⟨hclause, hmeasures⟩ := List.mem_filter.mp hclause
    cases clause with
    | single qubit bit => exact hsingle qubit bit hclause
    | whole r c => exact hwhole r c hclause
    | register => cases hmeasures
    | other => cases hmeasures

def oneRegister : String :=
  "OPENQASM 2.0;\nqreg q[2];\ncreg c[2];\nmeasure q -> c;\nmeasure q[1] -> c[0];"

theorem read_measured_iff_oneRegister :
    read oneRegister = .ok ⟨⟨none, [.define ⟨.bit, "c", 2, true⟩,
        .measureRepeatedly ⟨"c", 1, none⟩, .measure ⟨1, "c", 0⟩]⟩, 2⟩ ∧
      total (registers true (clauses oneRegister)) ≤ 2 ^ 53 - 1 ∧
      (clauses oneRegister).flatMap (Clause.measured (registers true (clauses oneRegister))) =
        [Operation.define ⟨.bit, "c", 2, true⟩, .measureRepeatedly ⟨"c", 1, none⟩,
          .measure ⟨1, "c", 0⟩].flatMap (measuredBy (Number.countBelow 2)) := by
  have hread : read oneRegister = .ok ⟨⟨none, [.define ⟨.bit, "c", 2, true⟩,
      .measureRepeatedly ⟨"c", 1, none⟩, .measure ⟨1, "c", 0⟩]⟩, 2⟩ := by decide +kernel
  have hclauses : clauses oneRegister = [.other, .register true "q" 2, .register false "c" 2,
      .whole "q" "c", .single ("q", 1) ("c", 0)] := by decide +kernel
  have hregisters : registers true (clauses oneRegister) = [("q", 2)] := by
    rw [hclauses]
    rfl
  have hbound : total (registers true (clauses oneRegister)) ≤ 2 ^ 53 - 1 := by
    rw [hregisters]
    decide
  refine ⟨hread, hbound, (read_measured_iff hread hbound).mpr ⟨?_, ?_⟩⟩
  · intro r c hclause register hregister
    rw [hregisters] at hregister
    rw [hclauses] at hclause
    simp_all
  · intro qubit bit hclause
    have hbit : bit.2 = 0 := by
      rw [hclauses] at hclause
      simp_all
    rw [hbit]
    exact Number.value_ofNat (by norm_num)

def twoRegisters : String :=
  "OPENQASM 2.0;\nqreg a[1];\nqreg b[1];\ncreg c[1];\nmeasure b -> c;"

/-- The circuit of `twoRegisters` measures the first qubit instead, and the second into a bit that
the register does not have. -/
theorem read_measured_twoRegisters :
    read twoRegisters =
        .ok ⟨⟨none, [.define ⟨.bit, "c", 1, true⟩, .measureRepeatedly ⟨"c", 1, none⟩]⟩, 2⟩ ∧
      (clauses twoRegisters).flatMap (Clause.measured (registers true (clauses twoRegisters))) =
        [(1, "c", 0)] ∧
      [Operation.define ⟨.bit, "c", 1, true⟩, .measureRepeatedly ⟨"c", 1, none⟩].flatMap
        (measuredBy (Number.countBelow 2)) = [(0, "c", 0), (1, "c", 1)] := by
  have hclauses : clauses twoRegisters = [.other, .register true "a" 1, .register true "b" 1,
      .register false "c" 1, .whole "b" "c"] := by decide +kernel
  have hregisters : registers true (clauses twoRegisters) = [("a", 1), ("b", 1)] := by
    rw [hclauses]
    rfl
  have hcount : Number.countBelow 2 = 2 := by decide +kernel
  refine ⟨by decide +kernel, ?_, ?_⟩
  · rw [hregisters, hclauses]
    simp [Clause.measured, number, List.lookup]
  · rw [hcount]
    simp [measuredBy, List.range_succ]

end OpenQasm.Source

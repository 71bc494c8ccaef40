import OpenQasm.Proofs.Backend.Writing
import OpenQasm.Proofs.Source.Scopes

/-!
# Programs that are read are well scoped

Whatever a program acts on is declared before: its qubits are elements of the qubit registers, by
their numbers, and its measurements write to registers that the circuit defines earlier. No gate
acts on one qubit twice, and no register is defined twice. The numbers are exact as long as there
are fewer than `2 ^ 53` qubits.
-/
namespace OpenQasm.Source

open Number (isNatural isPositive)

/-- What an operation writes to is among the definitions. -/
def WritesTo (ds : List Declaration) : Operation → Prop
  | .measure m => Backend.IsBit ds m.readout m.index
  | .measureRepeatedly m => ∃ d ∈ ds, d.name = m.readout
  | _ => True

def DistinctOperands : Operation → Prop
  | .gate (.pair _ control target) => (control == target) = false
  | _ => True

namespace Scope

/-- An operation after others in the circuit of a scope. -/
structure Covers (s : Scope) (before : List Operation) (op : Operation) : Prop where
  qubits : ∀ q ∈ op.qubits, ∃ e, s.Numbers e q
  operands : DistinctOperands op
  readout : WritesTo (Declaration.collect before) op

theorem Covers.advances {s s' : Scope} {clause : Clause} {before : List Operation} {op : Operation}
    (h : s.Covers before op) (hstep : s.Advances clause s') : s'.Covers before op where
  qubits q hq := (h.qubits q hq).imp (fun _ => hstep.numbers)
  operands := h.operands
  readout := h.readout

section

variable {s : Scope} {clauses : List Clause}

theorem HasBit.isBit {bit : String × ℕ} (hbit : s.HasBit bit) (h : s.Models clauses) :
    Backend.IsBit s.circuit.definitions bit.1 (Float.ofNat bit.2) := by
  obtain ⟨hsize, hinside⟩ := hbit
  have hmem := Table.mem_of_get? hsize
  rw [h.bits] at hmem
  obtain ⟨r, hr, heq⟩ := List.mem_map.mp hmem
  cases heq
  have hfinite := (Number.isPositive_iff.mp (h.lengths r hr)).1
  refine ⟨bitDeclaration r, ?_, rfl, Number.ofNat_lt_of_not_ge hfinite hinside⟩
  rw [h.definitions]
  exact List.mem_map_of_mem hr

theorem Performs.covers {clause : Clause} {op : Operation} (hop : s.Performs clause op)
    (h : s.Models clauses) : s.Covers s.circuit.operations op := by
  refine ⟨hop.numbers, ?_, ?_⟩
  · cases hop with
    | single => trivial
    | whole => trivial
    | gate hgate =>
        cases hgate with
        | pair _ hne => exact hne
        | _ => trivial
  · cases hop with
    | single hqubit hbit => exact hbit.isBit h
    | whole hsource htarget =>
        rw [h.bitKeys] at htarget
        obtain ⟨r, hr, hname⟩ := List.mem_map.mp htarget
        refine ⟨bitDeclaration r, ?_, hname⟩
        change _ ∈ s.circuit.definitions
        rw [h.definitions]
        exact List.mem_map_of_mem hr
    | gate hgate => cases hgate <;> trivial

end

/-- The invariant of all runs: beside what clauses declare, every operation is in scope. -/
structure Invariant (s : Scope) (clauses : List Clause) : Prop where
  models : s.Models clauses
  covers : ∀ before op, before ++ [op] <+: s.circuit.operations → s.Covers before op

theorem invariant_empty : empty.Invariant [] where
  models := models_empty
  covers before op h := by simp [empty, Circuit.empty] at h

theorem Invariant.advances {s s' : Scope} {clauses : List Clause} {clause : Clause}
    (h : s.Invariant clauses) (hstep : s.Advances clause s') :
    s'.Invariant (clauses ++ [clause]) := by
  refine ⟨h.models.advances hstep, fun before op hop => ?_⟩
  -- the operation was there before the statement, or it is the one that the statement adds
  have hearlier (hop : before ++ [op] <+: s.circuit.operations) : s'.Covers before op :=
    (h.covers before op hop).advances hstep
  cases id hstep with
  | version => exact hearlier hop
  | skip => exact hearlier hop
  | qubits => exact hearlier hop
  | bits =>
      rcases List.prefix_concat_iff.mp hop with heq | hop
      · obtain ⟨rfl, hlast⟩ := List.append_inj' heq rfl
        cases hlast
        exact ⟨fun _ hq => (List.not_mem_nil hq).elim, trivial, trivial⟩
      · exact hearlier hop
  | perform hperforms =>
      rcases List.prefix_concat_iff.mp hop with heq | hop
      · obtain ⟨rfl, hlast⟩ := List.append_inj' heq rfl
        cases hlast
        exact (hperforms.covers h.models).advances hstep
      · exact hearlier hop

section

variable {s : Scope} {clauses : List Clause}

theorem Models.count_eq (h : s.Models clauses)
    (hbound : total (registers true clauses) < 2 ^ 53) :
    s.qubitCount = Float.ofNat (total (registers true clauses)) := by
  have hsum : sumFrom (Float.ofNat 0) (registers true clauses) = _ :=
    sumFrom_ofNat (by rwa [Nat.zero_add])
  rw [Nat.zero_add] at hsum
  exact h.count.trans hsum

/-- With fewer than `2 ^ 53` qubits, the elements of the qubit registers have their numbers. -/
theorem Models.numbers_iff (h : s.Models clauses)
    (hbound : total (registers true clauses) < 2 ^ 53) {e : String × ℕ} {q : Float} :
    s.Numbers e q ↔
      e ∈ elements (registers true clauses) ∧
        q = Float.ofNat (number (registers true clauses) e) := by
  obtain ⟨name, i⟩ := e
  have hget : s.qubitRegisters.get? name = ((registers true clauses).lookup name).map
      (fun size =>
        ⟨Float.ofNat (number (registers true clauses) (name, 0)), Float.ofNat size⟩) := by
    have hlookup := lookup_placed (m := 0) (by rwa [Nat.zero_add]) name
    rw [Nat.zero_add] at hlookup
    rw [Table.get?, h.qubits]
    exact hlookup
  have hadd (hmem : (name, i) ∈ elements (registers true clauses)) :
      Float.ofNat (number (registers true clauses) (name, 0)) + Float.ofNat i =
        Float.ofNat (number (registers true clauses) (name, i)) := by
    have hlt := Set.mem_Iio.mp (number_mapsTo h.qubitNames hmem)
    rw [number_eq_add _ name i] at hlt ⊢
    exact Number.ofNat_add (hlt.trans hbound)
  constructor
  · rintro ⟨hregister, hinside⟩
    rw [hget] at hregister
    obtain ⟨size, hsize, rfl⟩ := Option.map_eq_some_iff.mp hregister
    have hmem := Table.mem_of_get? (t := ⟨registers true clauses⟩) hsize
    have hsmall : size < 2 ^ 53 := (le_total hmem).trans_lt hbound
    rw [ge_iff_le, Number.ofNat_le_ofNat_of_exact hsmall, not_le] at hinside
    have helement : (name, i) ∈ elements (registers true clauses) :=
      mem_elements.mpr ⟨size, hmem, hinside⟩
    exact ⟨helement, hadd helement⟩
  · rintro ⟨helement, rfl⟩
    obtain ⟨size, hmem, hlt⟩ := mem_elements.mp helement
    have hlookup : (registers true clauses).lookup name = some size :=
      Table.get?_of_mem (t := ⟨registers true clauses⟩) h.qubitNames hmem
    rw [hlookup, Option.map_some] at hget
    have hsmall : size < 2 ^ 53 := (le_total hmem).trans_lt hbound
    have hinside : ¬ Float.ofNat i ≥ Float.ofNat size := by
      rwa [ge_iff_le, Number.ofNat_le_ofNat_of_exact hsmall, not_le]
    have hnumber := Numbers.intro hget hinside
    rwa [hadd helement] at hnumber

end

/-- What can be relied on in a scope with given qubit registers. An operand is accepted exactly if
it spells an element of a register, and then stands for the number of that element. -/
structure WellScoped (s : Scope) (rs : List (String × ℕ)) : Prop where
  count : s.qubitCount = Float.ofNat (total rs)
  bijective : Set.BijOn (number rs) (elements rs) (Set.Iio (total rs))
  operands : ∀ cs q, s.qubit cs = .ok q ↔
    ∃ e ∈ elements rs, IsElement cs e.1 e.2 ∧ q = Float.ofNat (number rs e)
  qubits : ∀ op ∈ s.circuit.operations, ∀ q ∈ op.qubits, isNatural q = true ∧ q < s.qubitCount
  pairs : ∀ gate control target,
    Operation.gate (.pair gate control target) ∈ s.circuit.operations → (control == target) = false
  names : (s.circuit.definitions.map Declaration.name).Nodup
  lengths : ∀ d ∈ s.circuit.definitions, isPositive d.length = true
  readouts : ∀ before op, before ++ [op] <+: s.circuit.operations →
    WritesTo (Declaration.collect before) op

theorem Invariant.wellScoped {s : Scope} {clauses : List Clause} (h : s.Invariant clauses)
    (hbound : total (registers true clauses) < 2 ^ 53) :
    s.WellScoped (registers true clauses) := by
  have hnumbers {e : String × ℕ} {q : Float} := h.models.numbers_iff hbound (e := e) (q := q)
  have hcount := h.models.count_eq hbound
  have hcovers {op : Operation} (hop : op ∈ s.circuit.operations) :
      ∃ before, s.Covers before op := by
    obtain ⟨before, after, heq⟩ := List.append_of_mem hop
    exact ⟨before, h.covers before op ⟨after, by simp [heq]⟩⟩
  constructor
  · exact hcount
  · exact number_bijOn h.models.qubitNames
  · intro cs q
    rw [qubit_eq_ok_iff]
    constructor
    · rintro ⟨e, he, hq⟩
      obtain ⟨hmem, hq⟩ := hnumbers.mp hq
      exact ⟨e, hmem, element?_eq_some_iff.mp he, hq⟩
    · rintro ⟨e, hmem, he, hq⟩
      exact ⟨e, element?_eq_some_iff.mpr he, hnumbers.mpr ⟨hmem, hq⟩⟩
  · intro op hop q hq
    obtain ⟨before, hcover⟩ := hcovers hop
    obtain ⟨e, he⟩ := hcover.qubits q hq
    obtain ⟨hmem, rfl⟩ := hnumbers.mp he
    have hlt := Set.mem_Iio.mp (number_mapsTo h.models.qubitNames hmem)
    rw [hcount, Number.ofNat_lt_ofNat (hlt.trans hbound) hbound]
    exact ⟨Number.isNatural_ofNat (hlt.trans hbound), hlt⟩
  · intro gate control target hop
    obtain ⟨before, hcover⟩ := hcovers hop
    exact hcover.operands
  · rw [h.models.definitions, List.map_map]
    exact h.models.bitNames
  · intro d hd
    rw [h.models.definitions] at hd
    obtain ⟨r, hr, rfl⟩ := List.mem_map.mp hd
    exact h.models.lengths r hr
  · intro before op hop
    exact (h.covers before op hop).readout

end Scope

/-- Every program that is read is well scoped, if its qubit registers have at most `2 ^ 53 - 1`
qubits together. -/
theorem read_wellScoped {source : String} {result : Result} (h : read source = .ok result)
    (hbound : total (registers true (clauses source)) ≤ 2 ^ 53 - 1) :
    ∃ s : Scope, Scope.empty.run (statements source.toList).1 = .ok s ∧
      result = ⟨s.circuit, s.qubitCount⟩ ∧ s.WellScoped (registers true (clauses source)) := by
  obtain ⟨s, hrun, hresult⟩ := exists_scope h
  have hinvariant : s.Invariant (clauses source) :=
    read_induction Scope.invariant_empty Scope.Invariant.advances hrun
  exact ⟨s, hrun, hresult, hinvariant.wellScoped (by omega)⟩

/-- A program that declares a register after it has used another. -/
def interleaved : String :=
  "OPENQASM 2.0;\nqreg a[2];\nh a[1];\ncreg c[3];\nqreg b[1];\ncx a[1],b[0];\n" ++
    "measure b[0] -> c[2];\nmeasure a -> c;\n"

theorem read_wellScoped_interleaved :
    read interleaved = .ok ⟨⟨none, [.gate (.fixed .hadamard 1), .define ⟨.bit, "c", 3, true⟩,
        .gate (.pair .cnot 1 2), .measure ⟨2, "c", 2⟩, .measureRepeatedly ⟨"c", 1, none⟩]⟩, 3⟩ ∧
      registers true (clauses interleaved) = [("a", 2), ("b", 1)] ∧
      total (registers true (clauses interleaved)) ≤ 2 ^ 53 - 1 ∧
      ∃ s : Scope, Scope.empty.run (statements interleaved.toList).1 = .ok s ∧
        s.qubitCount = 3 ∧ s.WellScoped (registers true (clauses interleaved)) := by
  have hread : read interleaved = .ok ⟨⟨none, [.gate (.fixed .hadamard 1),
      .define ⟨.bit, "c", 3, true⟩, .gate (.pair .cnot 1 2), .measure ⟨2, "c", 2⟩,
      .measureRepeatedly ⟨"c", 1, none⟩]⟩, 3⟩ := by decide +kernel
  have hregisters : registers true (clauses interleaved) = [("a", 2), ("b", 1)] := by
    decide +kernel
  have hbound : total (registers true (clauses interleaved)) ≤ 2 ^ 53 - 1 := by
    rw [hregisters]
    decide
  obtain ⟨s, hrun, hresult, hscoped⟩ := read_wellScoped hread hbound
  exact ⟨hread, hregisters, hbound, s, hrun, (congrArg Result.qubitCount hresult).symm, hscoped⟩

end OpenQasm.Source

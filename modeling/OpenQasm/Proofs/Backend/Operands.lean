import OpenQasm.Proofs.Backend.Printing

/-!
# The qubit register and its uses

The size of the qubit register is computed from the qubits that operations act on. What is printed
in the lines comes from elsewhere: from the slots of gates, and from the sorted entries of mappings.
Both lists of qubits agree up to order. So every element of the register that is printed lies within
it, and a smaller register would not do.
-/
namespace OpenQasm

open Placeholder
open Number (value)

namespace Operation

theorem qubits_of_not_written {op : Operation} (h : Classified.isWritten op = false) :
    op.qubits = [] := by
  obtain ⟨_, rfl⟩ | ⟨_, rfl⟩ | ⟨_, rfl⟩ | ⟨_, rfl⟩ := Backend.cases_of_not_written h <;> rfl

theorem operands_of_not_written {op : Operation} (h : Classified.isWritten op = false) :
    op.operands = [] := by
  obtain ⟨_, rfl⟩ | ⟨_, rfl⟩ | ⟨_, rfl⟩ | ⟨_, rfl⟩ := Backend.cases_of_not_written h <;> rfl

end Operation

/-- An element of a register is named in one of the printed lines. -/
def Body.Shows (b : Body) (register : String) (i : ℕ) : Prop :=
  ∃ line ∈ b.lines.map Line.terminated, ∃ is, ActsOn register line is ∧ i ∈ is

namespace Backend

variable {o : Options} {ops : List Operation} {symbolic : Bool} {output : Output}

/-- Operations with a program act on qubits that are natural numbers, and need nothing more. -/
theorem translatable_of_compile (h : compile o ops symbolic = .ok output) :
    (∀ op ∈ ops, ∀ q ∈ op.qubits, Number.isNatural q = true) ∧ Translatable o ops symbolic := by
  have hnatural : ∀ op ∈ ops, ∀ q ∈ op.qubits, Number.isNatural q = true := by
    obtain ⟨c, hclassified, -⟩ := exists_of_bind_ok h
    obtain ⟨d, hrun, -⟩ := exists_of_bind_ok (ok_of_mapError_ok hclassified)
    intro op hop
    by_cases hwritten : Classified.isWritten op = true
    · exact Classified.isNatural_of_run (ok_of_mapError_ok hrun) op hop hwritten
    · rw [Operation.qubits_of_not_written (Bool.not_eq_true _ ▸ hwritten)]
      exact List.forall_mem_nil _
  exact ⟨hnatural, problems_eq_nil_iff.mp
    ((reports_compile o hnatural symbolic).exists_ok_iff.mp ⟨output, h⟩)⟩

theorem mem_operands_of_compile (h : compile o ops symbolic = .ok output) {op : Operation}
    (hop : op ∈ ops) {q : Float} : q ∈ op.operands ↔ q ∈ op.qubits := by
  obtain ⟨-, htranslatable⟩ := translatable_of_compile h
  refine Operation.mem_operands_iff ?_
  cases op with
  | foreign name qubits => exact absurd hop (htranslatable.known name qubits)
  | _ => rfl

theorem prints_compile (hnames : o.names = none) (h : compile o ops symbolic = .ok output) :
    ∃ parts, List.Forall₂ (Operation.Prints o.register) (ops.filter Classified.isWritten) parts ∧
      output.body.lines = parts.flatten := by
  obtain ⟨c, hclassified, h⟩ := exists_of_bind_ok h
  obtain ⟨body, hbody, h⟩ := exists_of_bind_ok h
  cases h
  obtain ⟨rfl, -⟩ := Classified.ofOperations_ok (ok_of_mapError_ok hclassified)
  exact Body.prints_ofOperations hnames (ok_of_mapError_ok hbody)

theorem size_compile (hsize : o.size = none) (h : compile o ops symbolic = .ok output) :
    output.size = Number.larger 1 (Circuit.qubitCount ⟨none, ops⟩) := by
  obtain ⟨c, hclassified, h⟩ := exists_of_bind_ok h
  obtain ⟨body, hbody, h⟩ := exists_of_bind_ok h
  cases h
  obtain ⟨rfl, -⟩ := Classified.ofOperations_ok (ok_of_mapError_ok hclassified)
  have hqubits : (ops.filter Classified.isWritten).flatMap Operation.qubits =
      ops.flatMap Operation.qubits :=
    flatMap_filter_of_nil (fun op hop => Operation.qubits_of_not_written hop)
  change size o ⟨none, ops.filter Classified.isWritten⟩ = _
  unfold size Circuit.qubitCount
  rw [hsize, hqubits]
  rfl

theorem isNumbered_of_compile (hindex : ∀ op ∈ ops, ∀ q ∈ op.qubits, IsIndex q)
    (h : compile o ops symbolic = .ok output) {op : Operation} (hop : op ∈ ops) :
    op.IsNumbered := by
  intro q hq
  obtain ⟨i, hi, hfinite, hvalue⟩ :=
    (hindex op hop q ((mem_operands_of_compile h hop).mp hq)).exists_nat
  exact ⟨i, by omega, hfinite, hvalue⟩

theorem exists_actsOn_of_compile (hnames : o.names = none)
    (hindex : ∀ op ∈ ops, ∀ q ∈ op.qubits, IsIndex q) (h : compile o ops symbolic = .ok output)
    {line : String} (hline : line ∈ output.body.lines.map Line.terminated) :
    ∃ is, ActsOn o.register line is ∧
      (∀ i ∈ is, ∃ q ∈ ops.flatMap Operation.qubits, value q = i) ∧
      (is = [] → ∃ readout count, .measureRepeatedly ⟨readout, count, none⟩ ∈ ops ∧
        line = measurement o.register readout) := by
  obtain ⟨l, hl, rfl⟩ := List.mem_map.mp hline
  obtain ⟨parts, hparts, hlines⟩ := prints_compile hnames h
  rw [hlines] at hl
  obtain ⟨lines, hmem, hl⟩ := List.mem_flatten.mp hl
  obtain ⟨op, hop, hprints⟩ := exists_of_forall₂ hparts.flip hmem
  have hop := List.mem_of_mem_filter hop
  rcases hprints.exists_actsOn (isNumbered_of_compile hindex h hop) hl with
    ⟨readout, count, rfl, rfl⟩ | ⟨is, hne, hacts, hqubits⟩
  · exact ⟨[], .whole rfl, List.forall_mem_nil _, fun _ => ⟨readout, count, hop, rfl⟩⟩
  · refine ⟨is, hacts, fun i hi => ?_, fun hnil => absurd hnil hne⟩
    obtain ⟨q, hq, hvalue⟩ := hqubits i hi
    exact ⟨q, List.mem_flatMap.mpr ⟨op, hop, (mem_operands_of_compile h hop).mp hq⟩, hvalue⟩

/-- The elements that are printed are those whose numbers are qubits of the operations. -/
theorem shows_iff (hnames : o.names = none) (hindex : ∀ op ∈ ops, ∀ q ∈ op.qubits, IsIndex q)
    (h : compile o ops symbolic = .ok output) {i : ℕ} :
    output.body.Shows o.register i ↔ ∃ q ∈ ops.flatMap Operation.qubits, value q = i := by
  constructor
  · rintro ⟨line, hline, is, hacts, hi⟩
    obtain ⟨js, hacts', hqubits, -⟩ := exists_actsOn_of_compile hnames hindex h hline
    rw [hacts.unique hacts'] at hi
    exact hqubits i hi
  · rintro ⟨q, hq, hvalue⟩
    obtain ⟨op, hop, hq⟩ := List.mem_flatMap.mp hq
    have hq := (mem_operands_of_compile h hop).mpr hq
    have hwritten : Classified.isWritten op = true := by
      by_contra hnot
      rw [Operation.operands_of_not_written (Bool.not_eq_true _ ▸ hnot)] at hq
      cases hq
    obtain ⟨parts, hparts, hlines⟩ := prints_compile hnames h
    obtain ⟨lines, hmem, hprints⟩ :=
      exists_of_forall₂ hparts (List.mem_filter.mpr ⟨hop, hwritten⟩)
    obtain ⟨l, hl, is, hacts, j, hj, hj'⟩ :=
      hprints.exists_line (isNumbered_of_compile hindex h hop) hq
    have hij : i = j := by exact_mod_cast hvalue.symm.trans hj'
    refine ⟨l.terminated, List.mem_map_of_mem ?_, is, hacts, hij ▸ hj⟩
    rw [hlines]
    exact List.mem_flatten_of_mem hmem hl

/-- A program declares a qubit register that is just large enough for its lines, if no size and no
names of qubits are chosen. Every printed line acts on elements of the register, or on the whole of
it if all qubits are measured, and the size is the least positive number above the numbers of the
elements that are printed. -/
theorem register_isLeast (hsize : o.size = none) (hnames : o.names = none)
    (hqubits : ∀ op ∈ ops, ∀ q ∈ op.qubits, q < limit)
    (h : compile o ops symbolic = .ok output) :
    ∃ n : ℕ,
      output.text = Text.join "\n" (Program.header :: Program.library ::
        ("qreg " ++ indexed o.register n ++ ";") ::
          (output.body.declarations.map Line.terminated ++
            output.body.lines.map Line.terminated)) ++ "\n" ∧
      (∀ line ∈ output.body.lines.map Line.terminated, ∃ is, ActsOn o.register line is ∧
        (∀ i ∈ is, i < n) ∧
        (is = [] → ∃ readout count, .measureRepeatedly ⟨readout, count, none⟩ ∈ ops ∧
          line = measurement o.register readout)) ∧
      IsLeast {m : ℕ | 0 < m ∧ ∀ i, output.body.Shows o.register i → i < m} n := by
  have hindex : ∀ op ∈ ops, ∀ q ∈ op.qubits, IsIndex q := fun op hop q hq =>
    ⟨(translatable_of_compile h).1 op hop q hq, hqubits op hop q hq⟩
  obtain ⟨n, hn, heq, hbound⟩ := larger_qubitCount (c := ⟨none, ops⟩) (fun q hq => by
    obtain ⟨op, hop, hq⟩ := List.mem_flatMap.mp hq
    exact hindex op hop q hq)
  obtain ⟨hpos, hlt⟩ := (hbound n).mp le_rfl
  have hfits {i : ℕ} (hi : ∃ q ∈ ops.flatMap Operation.qubits, value q = i) : i < n := by
    obtain ⟨q, hq, hvalue⟩ := hi
    have := hlt q hq
    rw [hvalue] at this
    exact_mod_cast this
  refine ⟨n, ?_, ?_, ⟨hpos, fun i hi => hfits ((shows_iff hnames hindex h).mp hi)⟩, ?_⟩
  · rw [(compile_ok h).1, size_compile hsize h, heq, Program.compose, element_ofNat hn]
  · intro line hline
    obtain ⟨is, hacts, hnumbers, hwhole⟩ := exists_actsOn_of_compile hnames hindex h hline
    exact ⟨is, hacts, fun i hi => hfits (hnumbers i hi), hwhole⟩
  · rintro m ⟨hm, hshown⟩
    refine (hbound m).mpr ⟨hm, fun q hq => ?_⟩
    obtain ⟨op, hop, hmem⟩ := List.mem_flatMap.mp hq
    obtain ⟨i, -, -, hvalue⟩ := (hindex op hop q hmem).exists_nat
    rw [hvalue]
    exact_mod_cast hshown i ((shows_iff hnames hindex h).mpr ⟨q, hq, hvalue⟩)

/-- Gates on far qubits, one by a deferred angle, and repeated measurements, one of mapped qubits
and one of all. -/
def farQubits : List Operation :=
  [.define ⟨.bit, "ro", 10, true⟩, .gate (.pair .cnot 7 2),
    .gate (.rotation .x 4 (.expression "a+b")),
    .measureRepeatedly ⟨"ro", 5, some ⟨[("9", 1), ("3", 0)]⟩⟩,
    .measureRepeatedly ⟨"ro", 5, none⟩]

theorem register_isLeast_farQubits :
    (∀ op ∈ farQubits, ∀ q ∈ op.qubits, q < limit) ∧
      ∃ output, compile ⟨"a", none, none, []⟩ farQubits true = .ok output ∧
        output.text = "OPENQASM 2.0;\ninclude \"qelib1.inc\";\nqreg a[10];\ncreg ro[10];\n" ++
          "cx a[7],a[2];\nrx(sym_1298c425) a[4];\nmeasure a[3] -> ro[0];\n" ++
          "measure a[9] -> ro[1];\nmeasure a -> ro;\n" ∧
        ∃ n : ℕ,
          output.text = Text.join "\n" (Program.header :: Program.library ::
            ("qreg " ++ indexed "a" n ++ ";") ::
              (output.body.declarations.map Line.terminated ++
                output.body.lines.map Line.terminated)) ++ "\n" ∧
          (∀ line ∈ output.body.lines.map Line.terminated, ∃ is, ActsOn "a" line is ∧
            (∀ i ∈ is, i < n) ∧
            (is = [] → ∃ readout count, .measureRepeatedly ⟨readout, count, none⟩ ∈ farQubits ∧
              line = measurement "a" readout)) ∧
          IsLeast {m : ℕ | 0 < m ∧ ∀ i, output.body.Shows "a" i → i < m} n := by
  have hqubits : ∀ op ∈ farQubits, ∀ q ∈ op.qubits, q < limit := by
    decide +kernel
  have htext : (compile ⟨"a", none, none, []⟩ farQubits true).toOption.map Output.text =
      some ("OPENQASM 2.0;\ninclude \"qelib1.inc\";\nqreg a[10];\ncreg ro[10];\n" ++
        "cx a[7],a[2];\nrx(sym_1298c425) a[4];\nmeasure a[3] -> ro[0];\n" ++
        "measure a[9] -> ro[1];\nmeasure a -> ro;\n") := by
    decide +kernel
  cases h : compile ⟨"a", none, none, []⟩ farQubits true with
  | error e =>
      rw [h] at htext
      cases htext
  | ok output =>
      rw [h] at htext
      have hresult := register_isLeast (o := ⟨"a", none, none, []⟩) rfl rfl hqubits h
      exact ⟨hqubits, output, rfl, Option.some.inj htext, hresult⟩

end Backend

end OpenQasm

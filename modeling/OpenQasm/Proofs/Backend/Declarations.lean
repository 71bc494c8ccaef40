import OpenQasm.Proofs.Simulator.Readout

/-!
# The registers that a program declares

A program declares its qubit register and, in order, every register that its circuit defines. A
register is checked against the others of its circuit when it is built in, and only then: when two
circuits are joined, their definitions are taken over as they are, and the name of the qubit
register is compared with none. So the names of a program are distinct exactly if the circuits
that were joined define no register in common and none is called like the qubit register.
-/
namespace OpenQasm

namespace Circuit

theorem build_ok {c d : Circuit} {op : Operation} (h : c.build op = .ok d) :
    c.check op = .ok () ∧ d = { c with operations := c.operations ++ [op] } := by
  unfold build at h
  split at h
  next hcheck => exact ⟨hcheck, (add_ok h).2⟩
  next => cases h

theorem append_ok {c d : Circuit} {ops : List Operation} (h : c.append ops = (d, none)) :
    d = { c with operations := c.operations ++ ops } := by
  induction ops generalizing c with
  | nil =>
      cases h
      rw [List.append_nil]
  | cons op ops ih =>
      rw [append] at h
      split at h
      next c' hadd =>
        rw [ih h, (add_ok hadd).2, List.append_assoc]
        rfl
      next => cases h

theorem concat_ok {c d e : Circuit} (h : c.concat d = .ok e) :
    e = { c with operations := c.operations ++ d.operations } := by
  unfold concat ofOperations at h
  split at h
  next c' happend =>
    cases h
    rw [append_ok happend]
    rfl
  next => cases h

end Circuit

/-- How a circuit is put together: operations are built in one by one, and a circuit is appended to
another or concatenated with another. -/
inductive Composition where
  | empty (name : Option String)
  | build (c : Composition) (op : Operation)
  | append (c d : Composition)
  | concat (c d : Composition)

namespace Composition

/-- The circuit that is put together, if everything on the way is accepted. -/
def circuit : Composition → Except Circuit.Error Circuit
  | empty name => .ok (.empty name)
  | build c op => do (← c.circuit).build op
  | append c d => do
      match (← c.circuit).append (← d.circuit).operations with
      | (joined, none) => .ok joined
      | (_, some e) => .error e
  | concat c d => do (← c.circuit).concat (← d.circuit)

def names : Composition → List String
  | empty _ => []
  | build c op => c.names ++ op.definition?.toList.map Declaration.name
  | append c d => c.names ++ d.names
  | concat c d => c.names ++ d.names

/-- Circuits that are joined define no register in common. -/
def Apart : Composition → Prop
  | empty _ => True
  | build c _ => c.Apart
  | append c d => c.Apart ∧ d.Apart ∧ c.names.Disjoint d.names
  | concat c d => c.Apart ∧ d.Apart ∧ c.names.Disjoint d.names

theorem exists_parts {p r : Composition} {c : Circuit}
    (h : (p.append r).circuit = .ok c ∨ (p.concat r).circuit = .ok c) :
    ∃ d e, p.circuit = .ok d ∧ r.circuit = .ok e ∧
      c.operations = d.operations ++ e.operations := by
  rcases h with h | h
  · obtain ⟨d, hd, h⟩ := exists_of_bind_ok h
    obtain ⟨e, he, h⟩ := exists_of_bind_ok h
    refine ⟨d, e, hd, he, ?_⟩
    split at h
    next joined happend =>
      cases h
      rw [Circuit.append_ok happend]
    next => cases h
  · obtain ⟨d, hd, h⟩ := exists_of_bind_ok h
    obtain ⟨e, he, h⟩ := exists_of_bind_ok h
    refine ⟨d, e, hd, he, ?_⟩
    rw [Circuit.concat_ok h]

theorem names_circuit {p : Composition} {c : Circuit} (h : p.circuit = .ok c) :
    c.definitions.map Declaration.name = p.names := by
  have hjoin {d e c : Circuit} (h : c.operations = d.operations ++ e.operations) :
      c.definitions.map Declaration.name =
        d.definitions.map Declaration.name ++ e.definitions.map Declaration.name := by
    unfold Circuit.definitions Declaration.collect
    rw [h, List.filterMap_append, List.map_append]
  induction p generalizing c with
  | empty name =>
      cases h
      rfl
  | build p op ih =>
      obtain ⟨d, hd, h⟩ := exists_of_bind_ok h
      have hc := (Circuit.build_ok h).2
      have hone : Circuit.definitions ⟨none, [op]⟩ = op.definition?.toList := by
        unfold Circuit.definitions Declaration.collect
        cases hop : op.definition? <;> simp [hop]
      rw [hjoin (e := ⟨none, [op]⟩) (congrArg Circuit.operations hc), ih hd, names, hone]
  | append p r ihp ihr =>
      obtain ⟨d, e, hd, he, hoperations⟩ := exists_parts (.inl h)
      rw [hjoin hoperations, ihp hd, ihr he, names]
  | concat p r ihp ihr =>
      obtain ⟨d, e, hd, he, hoperations⟩ := exists_parts (.inr h)
      rw [hjoin hoperations, ihp hd, ihr he, names]

theorem not_mem_names {p : Composition} {c : Circuit} {d : Declaration} (h : p.circuit = .ok c)
    (hcheck : c.check (.define d) = .ok ()) : d.name ∉ p.names := by
  rw [← names_circuit h]
  intro hmem
  obtain ⟨e, he, hname⟩ := List.mem_map.mp hmem
  have hany : c.definitions.any (fun e => e.name == d.name) = true :=
    List.any_eq_true.mpr ⟨e, he, beq_iff_eq.mpr hname⟩
  unfold Circuit.check at hcheck
  dsimp only at hcheck
  rw [hany] at hcheck
  split at hcheck <;> cases hcheck

/-- Only joining circuits can define a register twice. -/
theorem nodup_names_iff {p : Composition} {c : Circuit} (h : p.circuit = .ok c) :
    p.names.Nodup ↔ p.Apart := by
  induction p generalizing c with
  | empty name => exact iff_of_true List.nodup_nil trivial
  | build p op ih =>
      obtain ⟨d, hd, h⟩ := exists_of_bind_ok h
      have hcheck := (Circuit.build_ok h).1
      rw [names, Apart, ← ih hd]
      cases op with
      | define e =>
          have hnew := not_mem_names hd hcheck
          change (p.names ++ [e.name]).Nodup ↔ _
          rw [← List.concat_eq_append, List.nodup_concat]
          exact ⟨fun h => h.2, fun h => ⟨hnew, h⟩⟩
      | _ =>
          change (p.names ++ []).Nodup ↔ _
          rw [List.append_nil]
  | append p r ihp ihr =>
      obtain ⟨d, e, hd, he, -⟩ := exists_parts (.inl h)
      rw [names, Apart, List.nodup_append', ihp hd, ihr he]
  | concat p r ihp ihr =>
      obtain ⟨d, e, hd, he, -⟩ := exists_parts (.inr h)
      rw [names, Apart, List.nodup_append', ihp hd, ihr he]

end Composition

namespace Backend

/-- The names in the declarations of a program, that of the qubit register first. -/
def Output.declared (register : String) (p : Output) : List String :=
  register :: p.cregs.map Prod.fst

/-- The program of a circuit declares the qubit register and the registers of the circuit. The names
are distinct exactly if no circuits with a register in common were joined and no register is called
like the qubit register. -/
theorem declared_nodup_iff (o : Options) (p : Composition) (symbolic : Bool) {c : Circuit}
    {program : Output} (hc : p.circuit = .ok c)
    (hprogram : compile o c.operations symbolic = .ok program) :
    program.text = Program.compose o.register program.size
        (program.cregs.map (fun r => (Line.declare r.1 r.2).terminated))
        (program.body.lines.map Line.terminated) ∧
      ((program.declared o.register).Nodup ↔ o.register ∉ p.names ∧ p.Apart) := by
  refine ⟨text_compile hprogram, ?_⟩
  have hnames : program.cregs.map Prod.fst = p.names := by
    rw [cregs_compile hprogram, ← Composition.names_circuit hc, List.map_map]
    rfl
  unfold Output.declared
  rw [hnames, List.nodup_cons, Composition.nodup_names_iff hc]

def oneRegister (name : String) : Composition :=
  .build (.empty none) (.define ⟨.bit, name, 1, true⟩)

/-- Two circuits without a register in common, the second with a gate. -/
def joinedApart : Composition :=
  .concat (oneRegister "a") (.build (oneRegister "b") (.gate (.fixed .hadamard 0)))

theorem declared_nodup_iff_joinedApart :
    ∃ c program, joinedApart.circuit = .ok c ∧
      compile .default c.operations false = .ok program ∧
      ((program.declared defaultRegister).Nodup ↔
        defaultRegister ∉ joinedApart.names ∧ joinedApart.Apart) ∧
      (program.declared defaultRegister).Nodup := by
  have hcircuit : joinedApart.circuit = .ok ⟨none, [.define ⟨.bit, "a", 1, true⟩,
      .define ⟨.bit, "b", 1, true⟩, .gate (.fixed .hadamard 0)]⟩ := by
    decide +kernel
  have hprogram : compile .default [.define ⟨.bit, "a", 1, true⟩, .define ⟨.bit, "b", 1, true⟩,
      .gate (.fixed .hadamard 0)] false = .ok
        ⟨"OPENQASM 2.0;\ninclude \"qelib1.inc\";\nqreg q[1];\ncreg a[1];\ncreg b[1];\nh q[0];\n",
          1, ⟨[.declare "a" 1, .declare "b" 1], [.apply "h" [] ["q[0]"]], none⟩⟩ := by
    decide +kernel
  exact ⟨_, _, hcircuit, hprogram, (declared_nodup_iff .default joinedApart false hcircuit
    hprogram).2, by decide⟩

/-- A register is declared twice after two circuits that both define it were joined, and a register
of a single circuit is declared once more as the qubit register if it is called like it. -/
theorem declared_twice :
    (∃ c program, ((oneRegister "ro").concat (oneRegister "ro")).circuit = .ok c ∧
      compile .default c.operations false = .ok program ∧
      program.text =
        "OPENQASM 2.0;\ninclude \"qelib1.inc\";\nqreg q[1];\ncreg ro[1];\ncreg ro[1];\n" ∧
      ¬(program.declared defaultRegister).Nodup) ∧
    ∃ c program, (oneRegister "q").circuit = .ok c ∧
      compile .default c.operations false = .ok program ∧
      program.text = "OPENQASM 2.0;\ninclude \"qelib1.inc\";\nqreg q[1];\ncreg q[1];\n" ∧
      ¬(program.declared defaultRegister).Nodup := by
  constructor
  · exact ⟨⟨none, [.define ⟨.bit, "ro", 1, true⟩, .define ⟨.bit, "ro", 1, true⟩]⟩,
      ⟨"OPENQASM 2.0;\ninclude \"qelib1.inc\";\nqreg q[1];\ncreg ro[1];\ncreg ro[1];\n", 1,
        ⟨[.declare "ro" 1, .declare "ro" 1], [], none⟩⟩,
      by decide +kernel, by decide +kernel, rfl, by decide⟩
  · exact ⟨⟨none, [.define ⟨.bit, "q", 1, true⟩]⟩,
      ⟨"OPENQASM 2.0;\ninclude \"qelib1.inc\";\nqreg q[1];\ncreg q[1];\n", 1,
        ⟨[.declare "q" 1], [], none⟩⟩,
      by decide +kernel, by decide +kernel, rfl, by decide⟩

end Backend

end OpenQasm

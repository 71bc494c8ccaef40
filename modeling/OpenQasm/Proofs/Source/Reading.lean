import OpenQasm.Proofs.Backend.Writing
import OpenQasm.Proofs.Expr.Lexing
import OpenQasm.Proofs.Source.Lines
import OpenQasm.Proofs.Table
import OpenQasm.Source.Reader

/-!
# Reading what a backend writes

Read back, a program has one statement for each line: the version, the library, the qubit register,
one declaration for each definition, and then one operation for each further line. Reading goes
through a known sequence of scopes, and each line is the step from one to the next.
-/
namespace OpenQasm.Source

open OpenQasm.Text
open Number (value)
open Backend (IsIndex IsSize IsBit)

/-- An index as it is read back: zero has no sign. -/
def reindex (x : Float) : Float :=
  if x == 0 then 0 else x

theorem reindex_eq {x : Float} {n : ℕ} (hx : x.isFinite = true) (h : value x = n)
    (hn : n < 2 ^ 53) : reindex x = Float.ofNat n := by
  unfold reindex
  rcases Nat.eq_zero_or_pos n with rfl | hpos
  · rcases Number.eq_zero_of_value hx (by exact_mod_cast h) with rfl | rfl <;> decide
  · have hvalue : value x ≠ 0 := by
      rw [h]
      exact_mod_cast hpos.ne'
    rw [Number.beq_zero_of_value hx hvalue]
    exact Number.eq_ofNat hx h hpos hn

theorem isIndex_reindex {x : Float} (h : IsIndex x) : IsIndex (reindex x) := by
  obtain ⟨n, hn, hfin, hval⟩ := h.exists_nat
  rw [reindex_eq hfin hval (lt_trans (Nat.lt_succ_self n) hn)]
  exact Backend.isIndex_ofNat hn

theorem value_reindex {x : Float} (h : IsIndex x) : value (reindex x) = value x := by
  obtain ⟨n, hn, hfin, hval⟩ := h.exists_nat
  have hn' : n < 2 ^ 53 := lt_trans (Nat.lt_succ_self n) hn
  rw [reindex_eq hfin hval hn', hval, Number.value_ofNat hn']

theorem sameKey_reindex {x y : Float} (hx : IsIndex x) (hy : IsIndex y)
    (hne : (x == y) = false) : Number.sameKey (reindex x) (reindex y) = false := by
  obtain ⟨-, -, hxfin, -⟩ := hx.exists_nat
  obtain ⟨-, -, hyfin, -⟩ := hy.exists_nat
  obtain ⟨-, -, hxfin', -⟩ := (isIndex_reindex hx).exists_nat
  obtain ⟨-, -, hyfin', -⟩ := (isIndex_reindex hy).exists_nat
  have hkeys : (reindex x == reindex y) = false := by
    rw [← Bool.not_eq_true, Number.beq_iff_value hxfin' hyfin', value_reindex hx,
      value_reindex hy, ← Number.beq_iff_value hxfin hyfin, hne]
    exact Bool.false_ne_true
  rw [Number.sameKey, hkeys, Number.isNaN_eq_false hxfin']
  rfl

theorem toList_element_of_value {x : Float} {n : ℕ} (name : String) (hx : x.isFinite = true)
    (h : value x = n) (hn : n < 2 ^ 53) :
    (element name x).toList = name.toList ++ '[' :: (Decimal.digits n ++ [']']) := by
  rw [toList_element, Number.chars_of_value hx h hn]

/-- The registers of a program: one of `size` qubits, and the defined ones. -/
structure Declared (register : String) (size : ℕ) (ds : List Declaration) : Prop where
  isName : Text.isName register.toList = true
  positive : 0 < size
  bounded : size < 2 ^ 53
  names : ∀ d ∈ ds, Text.isName d.name.toList = true ∧ d.name ≠ register
  lengths : ∀ d ∈ ds, IsSize d.length
  distinct : (ds.map Declaration.name).Nodup

def outputBits (d : Declaration) : Declaration :=
  ⟨.bit, d.name, d.length, true⟩

def redefine (d : Declaration) : Operation :=
  .define (outputBits d)

/-- The operations that the lines of an operation are read as. -/
def reread (o : Backend.Options) : Operation → List Operation
  | .gate (.rotation axis qubit theta) =>
      [.gate (.rotation axis (reindex qubit) (.number (Backend.angle o theta)))]
  | .gate (.fixed gate qubit) => [.gate (.fixed gate (reindex qubit))]
  | .gate (.pair gate control target) =>
      [.gate (.pair gate (reindex control) (reindex target))]
  | .measure m => [.measure ⟨reindex m.qubit, m.readout, reindex m.index⟩]
  | .measureRepeatedly ⟨readout, _, none⟩ => [.measureRepeatedly ⟨readout, 1, none⟩]
  | .measureRepeatedly ⟨readout, _, some mapping⟩ =>
      (Backend.ascending mapping).map (fun e =>
        .measure ⟨Float.ofNat e.1, readout, reindex e.2⟩)
  | _ => []

namespace Scope

/-- The scope of a program with one qubit register after definitions and operations. -/
def ofParts (register : String) (size : Float) (ds : List Declaration) (ops : List Operation) :
    Scope :=
  ⟨true, ⟨[(register, ⟨0, size⟩)]⟩, ⟨ds.map (fun d => (d.name, d.length))⟩, size, ⟨none, ops⟩⟩

/-- Statements of the given texts lead from one scope to another. -/
def Reads (s : Scope) (lines : List (List Char)) (s' : Scope) : Prop :=
  ∀ sts : List Statement, sts.map Statement.text = lines → s.run sts = .ok s'

theorem Reads.nil (s : Scope) : s.Reads [] s := by
  intro sts hsts
  rw [List.map_eq_nil_iff.mp hsts]
  rfl

theorem Reads.cons {s s₁ s₂ : Scope} {l : List Char} {ls : List (List Char)}
    (h : ∀ n, s.step ⟨n, l⟩ = .ok s₁) (hs : s₁.Reads ls s₂) : s.Reads (l :: ls) s₂ := by
  intro sts hsts
  obtain ⟨⟨n, text⟩, rest, rfl, rfl, hrest⟩ := List.map_eq_cons_iff.mp hsts
  rw [run, h n]
  exact hs rest hrest

theorem run_append (s : Scope) (first second : List Statement) :
    s.run (first ++ second) = s.run first >>= fun s' => s'.run second := by
  induction first generalizing s with
  | nil => rfl
  | cons st first ih =>
      rw [List.cons_append, run, run]
      cases s.step st with
      | error e => rfl
      | ok s' => exact ih s'

theorem Reads.append {s s₁ s₂ : Scope} {ls ls' : List (List Char)} (h : s.Reads ls s₁)
    (h' : s₁.Reads ls' s₂) : s.Reads (ls ++ ls') s₂ := by
  intro sts hsts
  obtain ⟨first, second, rfl, hfirst, hsecond⟩ := List.map_eq_append_iff.mp hsts
  rw [run_append, h first hfirst]
  exact h' second hsecond

theorem step_version (line : ℕ) : empty.step ⟨line, "OPENQASM 2.0".toList⟩ =
    .ok { empty with hasVersion := true } := by
  have hversion : Command.ofText "OPENQASM 2.0".toList = .version "2.0" := by decide +kernel
  unfold step
  simp only [hversion]
  rfl

theorem step_apply {s : Scope} {line : ℕ} {text : List Char} {mnemonic : String}
    {parameters operands : List (List Char)} {qubits : List Float} {op : Operation}
    (hversion : s.hasVersion = true)
    (hcommand : Command.ofText text = .apply mnemonic parameters operands)
    (hgate : (mnemonic == "gate" || mnemonic == "opaque") = false)
    (hqubits : operands.mapM s.qubit = .ok qubits)
    (hop : operation mnemonic parameters qubits = .ok op)
    (hnatural : ∀ q ∈ op.qubits, Number.isNatural q = true) :
    s.step ⟨line, text⟩ =
      .ok { s with circuit := { s.circuit with operations := s.circuit.operations ++ [op] } } := by
  unfold step
  simp only [hcommand, hversion, hgate, hqubits, bind, Except.bind, hop, emit,
    Circuit.add_eq_ok hnatural]
  rfl

theorem step_measure {s : Scope} {line : ℕ} {text source target : List Char} {op : Operation}
    (hversion : s.hasVersion = true)
    (hcommand : Command.ofText text = .measure source target)
    (hop : s.measurement source target = .ok op)
    (hnatural : ∀ q ∈ op.qubits, Number.isNatural q = true) :
    s.step ⟨line, text⟩ =
      .ok { s with circuit := { s.circuit with operations := s.circuit.operations ++ [op] } } := by
  unfold step
  simp only [hcommand, hversion, hop, emit, Circuit.add_eq_ok hnatural]
  rfl

section

variable {register : String} {size : ℕ} {ds : List Declaration}

theorem qubit_element (h : Declared register size ds) (ops : List Operation) {q : Float}
    (hindex : IsIndex q) (hlt : value q < size) :
    (ofParts register (Float.ofNat size) ds ops).qubit (element register q).toList =
      .ok (reindex q) := by
  obtain ⟨n, hn, hfin, hval⟩ := hindex.exists_nat
  have hn' : n < 2 ^ 53 := lt_trans (Nat.lt_succ_self n) hn
  have hsize : n < size := by
    rw [hval] at hlt
    exact_mod_cast hlt
  unfold qubit
  rw [toList_element_of_value register hfin hval hn', indexed?_element h.isName,
    String.ofList_toList]
  have hget : (ofParts register (Float.ofNat size) ds ops).qubitRegisters.get? register =
      some ⟨0, Float.ofNat size⟩ := by simp [ofParts, Table.get?]
  have hinside : ¬ Float.ofNat n ≥ Float.ofNat size := by
    rw [ge_iff_le, Number.ofNat_le_ofNat h.bounded hn']
    exact hsize.not_ge
  dsimp only
  rw [hget]
  simp only [if_neg hinside]
  rw [reindex_eq hfin hval hn', Number.zero_add_ofNat hn']

theorem lookup_of_mem {d : Declaration} (hd : d ∈ ds)
    (h : (ds.map Declaration.name).Nodup) :
    (ds.map (fun d => (d.name, d.length))).lookup d.name = some d.length := by
  refine Table.get?_of_mem (t := ⟨ds.map (fun d => (d.name, d.length))⟩) ?_
    (List.mem_map_of_mem hd)
  unfold Table.keys
  rwa [List.map_map]

theorem lookup_of_not_mem {name : String} (h : ∀ d ∈ ds, d.name ≠ name) :
    (ds.map (fun d => (d.name, d.length))).lookup name = none := by
  rw [List.lookup_eq_none_iff]
  intro e he
  obtain ⟨d, hd, rfl⟩ := List.mem_map.mp he
  simpa using (h d hd).symm

theorem bit_element (h : Declared register size ds) (ops : List Operation) {readout : String}
    {index : Float} (hbit : IsBit ds readout index) :
    (ofParts register (Float.ofNat size) ds ops).bit (element readout index).toList =
      .ok (readout, reindex index) := by
  obtain ⟨d, hd, rfl, hnatural, hlt⟩ := hbit
  obtain ⟨k, -, hk, hlength⟩ := (h.lengths d hd).exists_nat
  obtain ⟨hfin, n, hval⟩ := Number.isNatural_iff.mp hnatural
  rw [hlength, Number.lt_iff_value hfin (Number.isFinite_ofNat hk), hval, Number.value_ofNat hk,
    Nat.cast_lt] at hlt
  have hn : n < 2 ^ 53 := hlt.trans hk
  unfold bit
  rw [toList_element_of_value d.name hfin hval hn, indexed?_element (h.names d hd).1,
    String.ofList_toList]
  have hget : (ofParts register (Float.ofNat size) ds ops).bitRegisters.get? d.name =
      some (Float.ofNat k) := by
    rw [← hlength]
    exact lookup_of_mem hd h.distinct
  have hinside : ¬ Float.ofNat n ≥ Float.ofNat k := by
    rw [ge_iff_le, Number.ofNat_le_ofNat hk hn]
    exact hlt.not_ge
  dsimp only
  rw [hget]
  simp only [if_neg hinside]
  rw [reindex_eq hfin hval hn]

end

theorem operation_fixed (gate : FixedGate) (q : Float) :
    operation (GateKind.fixed gate).mnemonic ((GateKind.fixed gate).constants.map String.toList)
      [q] = .ok (.gate (.fixed gate q)) := by
  cases gate <;> rfl

theorem operation_pair (gate : PairGate) {c t : Float} (h : Number.sameKey c t = false) :
    operation (GateKind.pair gate).mnemonic ((GateKind.pair gate).constants.map String.toList)
      [c, t] = .ok (.gate (.pair gate c t)) := by
  have hrepeats : hasRepeats [c, t] = false := by simp [hasRepeats, h]
  unfold operation
  rw [hrepeats]
  cases gate <;> rfl

theorem parameter_literal {x : Float} (hx : x.isFinite = true) :
    parameter (Number.literal x).toList = .ok (.number x) := by
  unfold parameter
  rw [String.ofList_toList, Calculator.evaluate_literal _ hx]

/-- A rotation is told from a gate with a fixed angle by its parameter, which is no fixed text. -/
theorem operation_rotation (axis : Axis) {text : List Char} {theta : Parameter}
    (hslash : text.count '/' = 0) (htheta : parameter text = .ok theta) (q : Float) :
    operation (GateKind.rotation axis).mnemonic [text] [q] =
      .ok (.gate (.rotation axis q theta)) := by
  have hfixed : fits (GateKind.fixed .sqrtPauliX).rule [text] 1 = false := by
    have hne : removeBlanks text ≠ "pi/2".toList := by
      intro heq
      have hmem : '/' ∈ removeBlanks text := by
        rw [heq]
        decide
      exact List.count_eq_zero.mp hslash (List.mem_of_mem_filter hmem)
    have hlist : ([removeBlanks text] == ["pi/2".toList]) = false := by
      rw [← Bool.not_eq_true, beq_iff_eq]
      exact fun heq => hne (List.cons.inj heq).1
    exact hlist
  have hfind : (kindsOf (GateKind.rotation axis).mnemonic).find?
      (fun kind => fits kind.rule [text] 1) = some (.rotation axis) := by
    cases axis with
    | x =>
        change ([GateKind.fixed .sqrtPauliX, .rotation .x].find? _) = _
        rw [List.find?_cons, hfixed]
        rfl
    | y => rfl
    | z => rfl
  have hmnemonic : ((GateKind.rotation axis).mnemonic == "u3") = false := by
    cases axis <;> rfl
  have hvalues : ([text].take
      (GateKind.rotation axis).rule.parameters.length).mapM parameter = .ok [theta] := by
    change [text].mapM parameter = _
    rw [List.mapM_cons, htheta]
    rfl
  unfold operation
  rw [hmnemonic]
  simp only [Bool.false_eq_true, if_false, List.length_singleton, hfind, hvalues]
  rfl

theorem isName_mnemonic (kind : GateKind) : isName kind.mnemonic.toList = true := by
  rcases kind with (_ | _ | _) | (_ | _ | _ | _ | _ | _ | _) | (_ | _ | _ | _) <;> rfl

theorem mnemonic_ne_keyword (kind : GateKind) :
    ∀ k ∈ keywords, kind.mnemonic.toList ≠ k.toList := by
  rcases kind with (_ | _ | _) | (_ | _ | _ | _ | _ | _ | _) | (_ | _ | _ | _) <;> decide +kernel

theorem isSolid_constants (kind : GateKind) : ∀ p ∈ kind.constants, IsSolid p.toList := by
  have hpi : IsSolid ['p', 'i', '/', '2'] := ⟨by simp, List.all_eq_true.mp rfl⟩
  rcases kind with (_ | _ | _) | (_ | _ | _ | _ | _ | _ | _) | (_ | _ | _ | _) <;>
    simp [GateKind.constants, hpi]

/-- The line of a gate is read as its mnemonic, its parameters and the indices of its qubits. -/
theorem step_gate {register : String} {size : ℕ} {ds : List Declaration}
    (h : Declared register size ds) (ops : List Operation) (kind : GateKind)
    {parameters : List String} (hparameters : ∀ p ∈ parameters, IsSolid p.toList)
    {qubits : List Float} (hne : qubits ≠ [])
    (hqubits : ∀ q ∈ qubits, IsIndex q ∧ value q < size) {op : Operation}
    (hop : operation kind.mnemonic (parameters.map String.toList) (qubits.map reindex) = .ok op)
    (hacts : op.qubits = qubits.map reindex) (line : ℕ) :
    (ofParts register (Float.ofNat size) ds ops).step
        ⟨line, (Line.apply kind.mnemonic parameters (qubits.map (element register))).text.toList⟩ =
      .ok (ofParts register (Float.ofNat size) ds (ops ++ [op])) := by
  have hcommand : Command.ofText
      (Line.apply kind.mnemonic parameters (qubits.map (element register))).text.toList =
        .apply kind.mnemonic (parameters.map String.toList)
          ((qubits.map (element register)).map String.toList) := by
    rw [toList_text_apply, ofText_gateText (isName_mnemonic kind) (mnemonic_ne_keyword kind),
      String.ofList_toList]
    · simpa using fun p hp => (hparameters p hp).isArgument
    · simpa using hne
    · simpa using fun q _ => (isSolid_element h.isName q).isArgument
  have hgate : (kind.mnemonic == "gate" || kind.mnemonic == "opaque") = false := by
    rcases kind with (_ | _ | _) | (_ | _ | _ | _ | _ | _ | _) | (_ | _ | _ | _) <;> rfl
  have hlookup : ((qubits.map (element register)).map String.toList).mapM
      (ofParts register (Float.ofNat size) ds ops).qubit = .ok (qubits.map reindex) := by
    refine mapM_eq_ok ?_
    rw [List.forall₂_map_left_iff, List.forall₂_map_left_iff, List.forall₂_map_right_iff,
      List.forall₂_same]
    exact fun q hq => qubit_element h ops (hqubits q hq).1 (hqubits q hq).2
  refine step_apply rfl hcommand hgate hlookup hop ?_
  rw [hacts]
  intro q hq
  obtain ⟨q', hq', rfl⟩ := List.mem_map.mp hq
  exact (isIndex_reindex (hqubits q' hq').1).1

theorem reads_rotation {register : String} {size : ℕ} {ds : List Declaration}
    (h : Declared register size ds) (ops : List Operation) (axis : Axis) {q : Float}
    (hindex : IsIndex q) (hlt : value q < size) {text : String} {theta : Parameter}
    (hsolid : IsSolid text.toList) (hslash : text.toList.count '/' = 0)
    (htheta : parameter text.toList = .ok theta) :
    (ofParts register (Float.ofNat size) ds ops).Reads
      [(Line.apply (GateKind.rotation axis).mnemonic [text] [element register q]).text.toList]
      (ofParts register (Float.ofNat size) ds
        (ops ++ [.gate (.rotation axis (reindex q) theta)])) := by
  have hqubits : ∀ q' ∈ [q], IsIndex q' ∧ value q' < size := by simpa using ⟨hindex, hlt⟩
  exact Reads.cons (step_gate h ops (.rotation axis) (by simpa using hsolid)
    (List.cons_ne_nil _ _) hqubits (operation_rotation axis hslash htheta _) rfl) (Reads.nil _)

theorem isName_element (name : String) (x : Float) : isName (element name x).toList = false := by
  rw [← Bool.not_eq_true]
  intro h
  have hmem : '[' ∈ (element name x).toList := by
    rw [toList_element]
    exact List.mem_append_right _ (.head _)
  exact absurd (isName_chars h _ hmem) (by decide)

/-- An element of the qubit register has no minus sign, so an arrow after it is found. -/
theorem no_minus_element {name : String} (h : isName name.toList = true) {x : Float}
    (hx : IsIndex x) : ∀ c ∈ (element name x).toList, c ≠ '-' := by
  obtain ⟨n, hn, hfin, hval⟩ := hx.exists_nat
  rw [toList_element_of_value name hfin hval (lt_trans (Nat.lt_succ_self n) hn)]
  rintro c hc rfl
  simp only [List.mem_append, List.mem_cons, List.not_mem_nil, or_false] at hc
  rcases hc with hc | hc | hc | hc
  · exact absurd (isName_chars h _ hc) (by decide)
  · cases hc
  · exact absurd (Decimal.isDigit_of_mem_digits hc) (by decide)
  · cases hc

theorem step_single {register : String} {size : ℕ} {ds : List Declaration}
    (h : Declared register size ds) (ops : List Operation) {q index : Float} {readout : String}
    (hindex : IsIndex q) (hlt : value q < size) (hbit : IsBit ds readout index) (line : ℕ) :
    (ofParts register (Float.ofNat size) ds ops).step
        ⟨line, (Line.measure (element register q) (element readout index)).text.toList⟩ =
      .ok (ofParts register (Float.ofNat size) ds
        (ops ++ [.measure ⟨reindex q, readout, reindex index⟩])) := by
  have hname : isName readout.toList = true := by
    obtain ⟨d, hd, rfl, -⟩ := hbit
    exact (h.names d hd).1
  have hcommand := ofText_measure (isSolid_element h.isName q).isArgument.isWord
    (no_minus_element h.isName hindex) (isSolid_element hname index).isArgument.isWord
  rw [← toList_text_measure] at hcommand
  refine step_measure rfl hcommand ?_ ?_
  · unfold measurement
    rw [isName_element, qubit_element h ops hindex hlt, bit_element h ops hbit]
    rfl
  · intro q' hq'
    rw [List.mem_singleton.mp hq']
    exact (isIndex_reindex hindex).1

theorem step_whole {register : String} {size : ℕ} {ds : List Declaration}
    (h : Declared register size ds) (ops : List Operation) {d : Declaration} (hd : d ∈ ds)
    (line : ℕ) :
    (ofParts register (Float.ofNat size) ds ops).step
        ⟨line, (Line.measure register d.name).text.toList⟩ =
      .ok (ofParts register (Float.ofNat size) ds
        (ops ++ [.measureRepeatedly ⟨d.name, 1, none⟩])) := by
  have hname := (h.names d hd).1
  have hminus : ∀ c ∈ register.toList, c ≠ '-' := by
    rintro c hc rfl
    exact absurd (isName_chars h.isName _ hc) (by decide)
  have hcommand := ofText_measure (isSolid_name h.isName).isArgument.isWord hminus
    (isSolid_name hname).isArgument.isWord
  rw [← toList_text_measure] at hcommand
  refine step_measure rfl hcommand ?_ (List.forall_mem_nil _)
  have hqubits : (ofParts register (Float.ofNat size) ds ops).qubitRegisters.contains register =
      true := by simp [ofParts, Table.contains, Table.get?]
  have hbits : (ofParts register (Float.ofNat size) ds ops).bitRegisters.contains d.name =
      true := by
    unfold Table.contains Table.get? ofParts
    dsimp only
    rw [lookup_of_mem hd h.distinct]
    rfl
  unfold measurement
  rw [h.isName, hname, String.ofList_toList, String.ofList_toList, hqubits, hbits]
  rfl

theorem reads_map {α : Type} {register : String} {size : Float} {ds : List Declaration}
    {line : α → List Char} {op : α → Operation} {xs : List α}
    (h : ∀ x ∈ xs, ∀ ops n, (ofParts register size ds ops).step ⟨n, line x⟩ =
      .ok (ofParts register size ds (ops ++ [op x]))) (ops : List Operation) :
    (ofParts register size ds ops).Reads (xs.map line)
      (ofParts register size ds (ops ++ xs.map op)) := by
  induction xs generalizing ops with
  | nil =>
      rw [List.map_nil, List.map_nil, List.append_nil]
      exact Reads.nil _
  | cons x xs ih =>
      rw [List.map_cons, List.map_cons]
      refine Reads.cons (h x (.head _) ops) ?_
      have hrest := ih (fun y hy => h y (.tail _ hy)) (ops ++ [op x])
      rwa [List.append_assoc, List.singleton_append] at hrest

/-- The lines of a writable operation are read as the operations it stands for. -/
theorem reads_written {o : Backend.Options} {size : ℕ} {ds : List Declaration}
    (h : Declared o.register size ds) {op : Operation} (hop : Backend.IsWritable o ds op)
    (hlt : ∀ q ∈ op.qubits, value q < size) (ops : List Operation) :
    (ofParts o.register (Float.ofNat size) ds ops).Reads
      ((Backend.written o op).map (fun l => l.text.toList))
      (ofParts o.register (Float.ofNat size) ds (ops ++ reread o op)) := by
  have hindex := hop.isIndex
  have hqubits : ∀ q ∈ op.qubits, IsIndex q ∧ value q < size := fun q hq =>
    ⟨hindex q hq, hlt q hq⟩
  cases op with
  | gate g =>
      cases g with
      | rotation axis q theta =>
          have hfin := hop.isFinite_angle
          exact reads_rotation h ops axis (hindex q (.head _)) (hlt q (.head _))
            (isSolid_literal hfin) (no_slash_literal _) (parameter_literal hfin)
      | fixed gate q =>
          exact Reads.cons (step_gate h ops (.fixed gate) (isSolid_constants _)
            (List.cons_ne_nil _ _) hqubits (operation_fixed gate _) rfl) (Reads.nil _)
      | pair gate control target =>
          refine Reads.cons (step_gate h ops (.pair gate) (isSolid_constants _)
            (List.cons_ne_nil _ _) hqubits (operation_pair gate ?_) rfl) (Reads.nil _)
          exact sameKey_reindex hop.1 hop.2.1 hop.2.2
  | measure m =>
      exact Reads.cons (step_single h ops (hindex _ (.head _)) (hlt _ (.head _)) hop.2)
        (Reads.nil _)
  | measureRepeatedly m =>
      obtain ⟨readout, count, mapping⟩ := m
      cases mapping with
      | none =>
          obtain ⟨⟨d, hd, rfl⟩, -⟩ := hop
          exact Reads.cons (step_whole h ops hd) (Reads.nil _)
      | some mapping =>
          obtain ⟨hmapping, hbits⟩ := hop.2 mapping rfl
          unfold Backend.written reread
          rw [List.map_map]
          refine reads_map (fun e he ops n => ?_) ops
          obtain ⟨hqubit, hbit⟩ := hmapping.exists_entry he
          have hlt' : e.1 < 2 ^ 53 := lt_trans (Nat.lt_succ_self _) (hmapping.lt_of_mem he)
          have hstep := step_single h ops (hindex _ hqubit) (hlt _ hqubit) (hbits _ hbit) n
          rwa [reindex_eq (Number.isFinite_ofNat hlt') (Number.value_ofNat hlt') hlt'] at hstep
  | define d =>
      rw [show reread o (.define d) = [] from rfl, List.append_nil]
      exact Reads.nil _
  | _ => exact absurd hop id

end Scope

end OpenQasm.Source

import OpenQasm.Proofs.Backend.Pipeline
import OpenQasm.Proofs.Number.Order
import OpenQasm.Proofs.Number.Text

/-!
# Circuits that are written in full

A circuit of table gates, definitions and measurements is written without an error if its names are
names, its numbers are indices and sizes below `2 ^ 53`, and its angles have finite values. Its
program then consists of known lines. The register of qubits is as large as chosen, or else just
large enough.
-/
namespace OpenQasm.Backend

open Number (value)

def limit : Float :=
  9007199254740991

def IsIndex (x : Float) : Prop :=
  Number.isNatural x = true ∧ x < limit

def IsSize (x : Float) : Prop :=
  Number.isPositive x = true ∧ x ≤ limit

/-- A bit of a defined register. -/
def IsBit (ds : List Declaration) (readout : String) (index : Float) : Prop :=
  ∃ d ∈ ds, d.name = readout ∧ Number.isNatural index = true ∧ index < d.length

/-- A mapping whose keys are qubits in decimal, all different. -/
structure IsMapping (m : QubitMapping) : Prop where
  distinct : m.keys.Nodup
  canonical : ∀ key ∈ m.keys, ∃ n : ℕ, n + 1 < 2 ^ 53 ∧ key = String.ofList (Decimal.digits n)

def substitutionCalculator (o : Options) : Calculator :=
  .ofList o.substitutions

/-- What is asked of an operation beside registers with the given definitions. -/
def IsWritable (o : Options) (ds : List Declaration) : Operation → Prop
  | .gate (.rotation _ qubit theta) =>
      IsIndex qubit ∧
        ∃ x, (substitutionCalculator o).evaluate theta = .ok x ∧ x.isFinite = true
  | .gate (.fixed _ qubit) => IsIndex qubit
  | .gate (.pair _ control target) =>
      IsIndex control ∧ IsIndex target ∧ (control == target) = false
  | .define _ => True
  | .measure m => IsIndex m.qubit ∧ IsBit ds m.readout m.index
  | .measureRepeatedly m =>
      (∃ d ∈ ds, d.name = m.readout) ∧
        ∀ mapping, m.mapping = some mapping →
          IsMapping mapping ∧ ∀ bit ∈ mapping.values, IsBit ds m.readout bit
  | _ => False

/-- Whether an operation measures one qubit, all qubits, or the qubits of a mapping. -/
inductive MeasurementForm where
  | single | whole | mapped
  deriving DecidableEq, Repr

def measurementForm? : Operation → Option MeasurementForm
  | .measure _ => some .single
  | .measureRepeatedly ⟨_, _, none⟩ => some .whole
  | .measureRepeatedly ⟨_, _, some _⟩ => some .mapped
  | _ => none

/-- A circuit, with options for its program, that is written in full. -/
structure Writable (o : Options) (ops : List Operation) : Prop where
  register : Text.isName o.register.toList = true
  unnamed : o.names = none
  size : ∀ n, o.size = some n → IsSize n ∧ ∀ op ∈ ops, ∀ q ∈ op.qubits, q < n
  names : ∀ d ∈ Declaration.collect ops, Text.isName d.name.toList = true ∧ d.name ≠ o.register
  lengths : ∀ d ∈ Declaration.collect ops, IsSize d.length
  distinct : ((Declaration.collect ops).map Declaration.name).Nodup
  operations : ∀ op ∈ ops, IsWritable o (Declaration.collect ops) op
  oneForm : ∃ form, ∀ op ∈ ops, ∀ f, measurementForm? op = some f → f = form

def angle (o : Options) (theta : Parameter) : Float :=
  match (substitutionCalculator o).evaluate theta with
  | .ok x => x
  | .error _ => Number.nan

/-- The entries of a mapping in the order of their qubits. -/
def ascending (m : QubitMapping) : List (ℕ × Float) :=
  (m.toList.map (fun e => (Decimal.ofDigits e.1.toList, e.2))).mergeSort (fun a b => a.1 ≤ b.1)

def written (o : Options) : Operation → List Line
  | .gate (.rotation axis qubit theta) =>
      [.apply (GateKind.rotation axis).mnemonic [Number.literal (angle o theta)]
        [element o.register qubit]]
  | .gate (.fixed gate qubit) =>
      [.apply (GateKind.fixed gate).mnemonic (GateKind.fixed gate).constants
        [element o.register qubit]]
  | .gate (.pair gate control target) =>
      [.apply (GateKind.pair gate).mnemonic (GateKind.pair gate).constants
        [element o.register control, element o.register target]]
  | .measure m => [.measure (element o.register m.qubit) (element m.readout m.index)]
  | .measureRepeatedly ⟨readout, _, none⟩ => [.measure o.register readout]
  | .measureRepeatedly ⟨readout, _, some mapping⟩ =>
      (ascending mapping).map (fun e =>
        .measure (element o.register (Float.ofNat e.1)) (element readout e.2))
  | _ => []

theorem isFinite_limit : limit.isFinite = true :=
  Number.isFinite_ofNat (n := 9007199254740991) (by norm_num)

theorem value_limit : value limit = 9007199254740991 := by
  have := Number.value_ofNat (n := 9007199254740991) (by norm_num)
  exact_mod_cast this

theorem IsIndex.exists_nat {x : Float} (h : IsIndex x) :
    ∃ n : ℕ, n + 1 < 2 ^ 53 ∧ x.isFinite = true ∧ value x = n := by
  obtain ⟨hnat, hlt⟩ := h
  obtain ⟨hfin, n, hn⟩ := Number.isNatural_iff.mp hnat
  rw [Number.lt_iff_value hfin isFinite_limit, value_limit, hn] at hlt
  have : n < 9007199254740991 := by exact_mod_cast hlt
  exact ⟨n, by omega, hfin, hn⟩

theorem IsSize.exists_nat {x : Float} (h : IsSize x) :
    ∃ n : ℕ, 0 < n ∧ n < 2 ^ 53 ∧ x = Float.ofNat n := by
  obtain ⟨hpos, hle⟩ := h
  obtain ⟨hfin, n, hn, hval⟩ := Number.isPositive_iff.mp hpos
  rw [Number.le_iff_value hfin isFinite_limit, value_limit, hval] at hle
  have hlt : n ≤ 9007199254740991 := by exact_mod_cast hle
  exact ⟨n, hn, by omega, Number.eq_ofNat hfin hval hn (by omega)⟩

theorem mem_ascending {m : QubitMapping} {e : ℕ × Float} :
    e ∈ ascending m ↔ e ∈ m.toList.map (fun e => (Decimal.ofDigits e.1.toList, e.2)) :=
  (List.mergeSort_perm _ _).mem_iff

theorem IsMapping.lt_of_mem {m : QubitMapping} (h : IsMapping m) {e : ℕ × Float}
    (he : e ∈ ascending m) : e.1 + 1 < 2 ^ 53 := by
  obtain ⟨entry, hentry, rfl⟩ := List.mem_map.mp (mem_ascending.mp he)
  obtain ⟨n, hn, hkey⟩ := h.canonical entry.1 (List.mem_map_of_mem hentry)
  simpa [hkey, Decimal.ofDigits_digits] using hn

theorem IsMapping.eq_of_fst_eq {m : QubitMapping} (h : IsMapping m) {a b : ℕ × Float}
    (ha : a ∈ ascending m) (hb : b ∈ ascending m) (heq : a.1 = b.1) : a = b := by
  obtain ⟨entry, hentry, rfl⟩ := List.mem_map.mp (mem_ascending.mp ha)
  obtain ⟨entry', hentry', rfl⟩ := List.mem_map.mp (mem_ascending.mp hb)
  obtain ⟨n, -, hkey⟩ := h.canonical entry.1 (List.mem_map_of_mem hentry)
  obtain ⟨n', -, hkey'⟩ := h.canonical entry'.1 (List.mem_map_of_mem hentry')
  dsimp only at heq
  rw [hkey, hkey', String.toList_ofList, String.toList_ofList, Decimal.ofDigits_digits,
    Decimal.ofDigits_digits] at heq
  have hsame : entry = entry' :=
    List.inj_on_of_nodup_map h.distinct hentry hentry' (by rw [hkey, hkey', heq])
  rw [hsame]

theorem ascending_ordered (m : QubitMapping) : (ascending m).Pairwise (fun a b => a.1 ≤ b.1) := by
  have hsorted : (ascending m).Pairwise (fun a b => decide (a.1 ≤ b.1) = true) :=
    List.pairwise_mergeSort (by intro a b c; simp only [decide_eq_true_eq]; omega)
      (by intro a b; simp only [Bool.or_eq_true, decide_eq_true_eq]; omega) _
  exact hsorted.imp (by simp)

theorem IsMapping.perm_ascending {m : QubitMapping} (h : IsMapping m) :
    (m.toList.map (fun e => (Number.read e.1.toList, e.2))).Perm
      ((ascending m).map (fun e => (Float.ofNat e.1, e.2))) := by
  have hentries : m.toList.map (fun e => (Number.read e.1.toList, e.2)) =
      (m.toList.map (fun e => (Decimal.ofDigits e.1.toList, e.2))).map
        (fun e => (Float.ofNat e.1, e.2)) := by
    rw [List.map_map]
    apply List.map_congr_left
    intro e he
    obtain ⟨n, -, hn⟩ := h.canonical e.1 (List.mem_map_of_mem he)
    simp [hn, Number.read_digits, Decimal.ofDigits_digits]
  rw [hentries]
  exact (List.mergeSort_perm _ _).symm.map _

theorem IsMapping.exists_entry {m : QubitMapping} (h : IsMapping m) {e : ℕ × Float}
    (he : e ∈ ascending m) :
    Float.ofNat e.1 ∈ m.qubits ∧ e.2 ∈ m.values := by
  have hmem := h.perm_ascending.mem_iff.mpr (List.mem_map_of_mem he)
  obtain ⟨entry, hentry, heq⟩ := List.mem_map.mp hmem
  obtain ⟨hkey, hbit⟩ := Prod.mk.inj heq
  refine ⟨List.mem_map.mpr ⟨entry.1, List.mem_map_of_mem hentry, hkey⟩, ?_⟩
  rw [← hbit]
  exact List.mem_map_of_mem hentry

theorem IsWritable.isFinite_angle {o : Options} {ds : List Declaration} {axis : Axis} {q : Float}
    {theta : Parameter} (h : IsWritable o ds (.gate (.rotation axis q theta))) :
    (angle o theta).isFinite = true := by
  obtain ⟨-, x, hx, hfin⟩ := h
  rw [angle, hx]
  exact hfin

/-- What the lines of a writable operation can be: a gate by its constants or by a finite angle, the
measurement of a qubit into a bit, or that of all qubits into a register. -/
theorem IsWritable.mem_written {o : Options} {ds : List Declaration} {op : Operation}
    (h : IsWritable o ds op) {l : Line} (hl : l ∈ written o op) :
    (∃ (kind : GateKind) (parameters : List String) (qubits : List Float),
      (parameters = kind.constants ∨ ∃ x : Float, x.isFinite = true ∧
        parameters = [Number.literal x]) ∧ qubits ≠ [] ∧
      l = .apply kind.mnemonic parameters (qubits.map (element o.register))) ∨
    (∃ q readout index, IsBit ds readout index ∧
      l = .measure (element o.register q) (element readout index)) ∨
    ∃ d ∈ ds, l = .measure o.register d.name := by
  cases op with
  | gate g =>
      refine .inl ?_
      cases g with
      | rotation axis q theta =>
          exact ⟨.rotation axis, _, [q], .inr ⟨_, h.isFinite_angle, rfl⟩, List.cons_ne_nil _ _,
            List.mem_singleton.mp hl⟩
      | fixed gate q =>
          exact ⟨.fixed gate, _, [q], .inl rfl, List.cons_ne_nil _ _, List.mem_singleton.mp hl⟩
      | pair gate control target =>
          exact ⟨.pair gate, _, [control, target], .inl rfl, List.cons_ne_nil _ _,
            List.mem_singleton.mp hl⟩
  | measure m => exact .inr (.inl ⟨m.qubit, m.readout, m.index, h.2, List.mem_singleton.mp hl⟩)
  | measureRepeatedly m =>
      obtain ⟨readout, count, mapping⟩ := m
      cases mapping with
      | none =>
          obtain ⟨⟨d, hd, rfl⟩, -⟩ := h
          exact .inr (.inr ⟨d, hd, List.mem_singleton.mp hl⟩)
      | some mapping =>
          obtain ⟨hmapping, hbits⟩ := h.2 mapping rfl
          obtain ⟨e, he, rfl⟩ := List.mem_map.mp hl
          exact .inr (.inl ⟨_, readout, e.2, hbits _ (hmapping.exists_entry he).2, rfl⟩)
  | _ => cases hl

theorem sortOn_mapping {m : QubitMapping} (h : IsMapping m) :
    Number.sortOn Prod.fst (m.toList.map (fun e => (Number.read e.1.toList, e.2))) =
      (ascending m).map (fun e => (Float.ofNat e.1, e.2)) := by
  have hperm := (Number.sortOn_perm Prod.fst _).trans h.perm_ascending
  have hvalue : ∀ e ∈ ascending m, value (Float.ofNat e.1) = e.1 := fun e he =>
    Number.value_ofNat (lt_trans (Nat.lt_succ_self _) (h.lt_of_mem he))
  have hfinite : ∀ e ∈ m.toList.map (fun e => (Number.read e.1.toList, e.2)),
      e.1.isFinite = true := by
    intro a ha
    obtain ⟨e, he, rfl⟩ := List.mem_map.mp (h.perm_ascending.mem_iff.mp ha)
    exact Number.isFinite_ofNat (lt_trans (Nat.lt_succ_self _) (h.lt_of_mem he))
  have hordered : ((ascending m).map (fun e => (Float.ofNat e.1, e.2))).Pairwise
      (fun a b => value a.1 ≤ value b.1) := by
    rw [List.pairwise_map]
    refine (ascending_ordered m).imp_of_mem (fun {a b} ha hb hab => ?_)
    rw [hvalue a ha, hvalue b hb, Nat.cast_le]
    exact hab
  refine List.Perm.eq_of_pairwise ?_ (Number.sortOn_ascending hfinite).ordered hordered hperm
  intro a b ha hb hab hba
  obtain ⟨e, he, rfl⟩ := List.mem_map.mp (hperm.mem_iff.mp ha)
  obtain ⟨e', he', rfl⟩ := List.mem_map.mp hb
  have heq := le_antisymm hab hba
  dsimp only at heq
  rw [hvalue e he, hvalue e' he', Nat.cast_inj] at heq
  rw [h.eq_of_fst_eq he he' heq]

theorem isIndex_ofNat {n : ℕ} (h : n + 1 < 2 ^ 53) : IsIndex (Float.ofNat n) := by
  have hlt : n < 2 ^ 53 := lt_trans (Nat.lt_succ_self n) h
  refine ⟨Number.isNatural_ofNat hlt, ?_⟩
  rw [Number.lt_iff_value (Number.isFinite_ofNat hlt) isFinite_limit, Number.value_ofNat hlt,
    value_limit]
  exact_mod_cast (by omega : n < 9007199254740991)

theorem IsBit.isIndex {ds : List Declaration} (hds : ∀ d ∈ ds, IsSize d.length)
    {readout : String} {index : Float} (h : IsBit ds readout index) : IsIndex index := by
  obtain ⟨d, hd, -, hnatural, hlt⟩ := h
  obtain ⟨k, -, hk, heq⟩ := (hds d hd).exists_nat
  have hfin := (Number.isNatural_iff.mp hnatural).1
  have hle := (hds d hd).2
  have hdfin : d.length.isFinite = true := by
    rw [heq]
    exact Number.isFinite_ofNat hk
  rw [Number.lt_iff_value hfin hdfin] at hlt
  rw [Number.le_iff_value hdfin isFinite_limit] at hle
  refine ⟨hnatural, ?_⟩
  rw [Number.lt_iff_value hfin isFinite_limit]
  exact lt_of_lt_of_le hlt hle

theorem IsWritable.isIndex {o : Options} {ds : List Declaration} {op : Operation}
    (h : IsWritable o ds op) : ∀ q ∈ op.qubits, IsIndex q := by
  cases op with
  | gate g =>
      cases g with
      | rotation axis qubit theta =>
          intro q hq
          rw [List.mem_singleton.mp hq]
          exact h.1
      | fixed gate qubit =>
          intro q hq
          rw [List.mem_singleton.mp hq]
          exact h
      | pair gate control target =>
          intro q hq
          rcases List.mem_pair.mp hq with rfl | rfl
          · exact h.1
          · exact h.2.1
  | measure m =>
      intro q hq
      rw [List.mem_singleton.mp hq]
      exact h.1
  | measureRepeatedly m =>
      obtain ⟨readout, count, mapping⟩ := m
      cases mapping with
      | none => exact List.forall_mem_nil _
      | some mapping =>
          intro q hq
          obtain ⟨key, hkey, rfl⟩ := List.mem_map.mp hq
          obtain ⟨n, hn, rfl⟩ := (h.2 mapping rfl).1.canonical key hkey
          rw [String.toList_ofList, Number.read_digits]
          exact isIndex_ofNat hn
  | define d => exact List.forall_mem_nil _
  | _ => exact absurd h id

theorem ofOperation_eq {o : Options} (hnames : o.names = none) {ds : List Declaration}
    {op : Operation} (h : IsWritable o ds op) (hdef : op.isDefinition = false) :
    Line.ofOperation ⟨⟨o.register, o.names⟩, some (substitutionCalculator o).evaluate,
      fun _ => false⟩ op = .ok (written o op) := by
  rw [hnames]
  cases op with
  | gate g =>
      cases g with
      | rotation axis qubit theta =>
          obtain ⟨-, x, hx, -⟩ := h
          have hangle : angle o theta = x := by rw [angle, hx]
          have hparameter : Line.Options.parameter ⟨⟨o.register, none⟩,
              some (substitutionCalculator o).evaluate, fun _ => false⟩ theta =
                .ok (Number.literal x) := by
            unfold Line.Options.parameter Line.Options.resolve Parameter.resolve
            cases theta <;> simp only [hx] <;> rfl
          unfold Line.ofOperation Line.ofGate Line.ofSlots
          cases axis <;> simp [Gate.kind, Gate.slots, GateKind.rule, Slots.parameter?, hparameter,
            written, hangle, GateKind.constants] <;> rfl
      | fixed gate qubit => cases gate <;> rfl
      | pair gate control target => cases gate <;> rfl
  | measure m => rfl
  | measureRepeatedly m =>
      obtain ⟨readout, count, mapping⟩ := m
      cases mapping with
      | none => rfl
      | some mapping =>
          unfold Line.ofOperation Line.ofRepeated
          dsimp only
          rw [sortOn_mapping (h.2 mapping rfl).1, written]
          refine mapM_eq_ok ?_
          rw [List.forall₂_map_left_iff, List.forall₂_map_right_iff, List.forall₂_same]
          exact fun e _ => rfl
  | define d => cases hdef
  | _ => exact absurd h id

/-- Just enough qubits: at least one, and more than every index. -/
theorem larger_qubitCount {c : Circuit}
    (h : ∀ q ∈ c.operations.flatMap Operation.qubits, IsIndex q) :
    ∃ n : ℕ, n < 2 ^ 53 ∧ Number.larger 1 c.qubitCount = Float.ofNat n ∧
      ∀ b : ℕ, n ≤ b ↔ 1 ≤ b ∧ ∀ q ∈ c.operations.flatMap Operation.qubits, value q < b := by
  unfold Circuit.qubitCount
  generalize c.operations.flatMap Operation.qubits = qs at h ⊢
  have hone : (-1 : Float).isFinite = true := by decide
  have hvalue : value (-1) = -1 := by decide +kernel
  have hfinite : ∀ q ∈ qs, q.isFinite = true := fun q hq =>
    (Number.isNatural_iff.mp (h q hq).1).1
  obtain ⟨-, hbound⟩ := Number.foldl_larger_spec hone hfinite
  have hle := (hbound _).mp le_rfl
  have hmem : qs.foldl Number.larger (-1) ∈ -1 :: qs := by
    apply Number.foldl_larger_mem
    intro y hy
    rcases List.mem_cons.mp hy with rfl | hy
    · exact hone
    · exact hfinite y hy
  rcases List.mem_cons.mp hmem with heq | hin
  · -- there is no qubit, since an index is above the start of the fold
    refine ⟨1, by norm_num, ?_, fun b => ⟨fun hb => ⟨hb, fun q hq => ?_⟩, And.left⟩⟩
    · rw [heq]
      decide
    · obtain ⟨n, -, -, hn⟩ := (h q hq).exists_nat
      have := hle.2 q hq
      rw [heq, hvalue, hn] at this
      have hnonneg : (0 : ℚ) ≤ n := Nat.cast_nonneg n
      linarith
  · obtain ⟨k, hk, hfin, hval⟩ := (h _ hin).exists_nat
    have hsum := Number.add_one_eq hfin hval hk
    obtain ⟨hlfin, hlval⟩ := Number.larger_spec Number.isFinite_one (Number.isFinite_ofNat hk)
    have hmax : (1 : ℚ) ≤ (k + 1 : ℕ) := by exact_mod_cast k.succ_pos
    rw [Number.value_one, Number.value_ofNat hk, max_eq_right hmax] at hlval
    refine ⟨k + 1, hk, ?_, fun b => ⟨fun hb => ⟨by omega, fun q hq => ?_⟩, fun hb => ?_⟩⟩
    · rw [hsum]
      exact Number.eq_ofNat hlfin hlval k.succ_pos hk
    · have hq' := hle.2 q hq
      rw [hval] at hq'
      exact lt_of_le_of_lt hq' (by exact_mod_cast hb)
    · have := hb.2 _ hin
      rw [hval] at this
      exact_mod_cast this

theorem Writable.isIndex {o : Options} {ops : List Operation} (h : Writable o ops) :
    ∀ q ∈ ops.flatMap Operation.qubits, IsIndex q := by
  intro q hq
  obtain ⟨op, hop, hq⟩ := List.mem_flatMap.mp hq
  exact (h.operations op hop).isIndex q hq

theorem Writable.exists_size {o : Options} {ops : List Operation} (h : Writable o ops) :
    ∃ n : ℕ, 0 < n ∧ n < 2 ^ 53 ∧ Backend.size o ⟨none, ops⟩ = Float.ofNat n ∧
      ∀ q ∈ ops.flatMap Operation.qubits, value q < n := by
  unfold Backend.size
  cases hsize : o.size with
  | none =>
      obtain ⟨n, hn, heq, hbound⟩ := larger_qubitCount (c := ⟨none, ops⟩) h.isIndex
      obtain ⟨hpos, hlt⟩ := (hbound n).mp le_rfl
      exact ⟨n, hpos, hn, heq, hlt⟩
  | some x =>
      obtain ⟨hx, hlt⟩ := h.size x hsize
      obtain ⟨n, hpos, hn, rfl⟩ := hx.exists_nat
      refine ⟨n, hpos, hn, rfl, fun q hq => ?_⟩
      obtain ⟨-, -, hfin, -⟩ := (h.isIndex q hq).exists_nat
      obtain ⟨op, hop, hq⟩ := List.mem_flatMap.mp hq
      have := hlt op hop q hq
      rwa [Number.lt_iff_value hfin (Number.isFinite_ofNat hn), Number.value_ofNat hn] at this

theorem size_eq_of_values {o : Options} {ops ops' : List Operation}
    (h : ∀ q ∈ ops.flatMap Operation.qubits, IsIndex q)
    (h' : ∀ q ∈ ops'.flatMap Operation.qubits, IsIndex q)
    (hvalues : ∀ v, v ∈ (ops.flatMap Operation.qubits).map value ↔
      v ∈ (ops'.flatMap Operation.qubits).map value) :
    Backend.size o ⟨none, ops⟩ = Backend.size o ⟨none, ops'⟩ := by
  unfold Backend.size
  cases o.size with
  | some x => rw [Option.getD_some, Option.getD_some]
  | none =>
      obtain ⟨n, -, heq, hbound⟩ := larger_qubitCount (c := ⟨none, ops⟩) h
      obtain ⟨n', -, heq', hbound'⟩ := larger_qubitCount (c := ⟨none, ops'⟩) h'
      have hsame (b : ℕ) : n ≤ b ↔ n' ≤ b := by
        have hall : (∀ v ∈ (ops.flatMap Operation.qubits).map value, v < b) ↔
            ∀ v ∈ (ops'.flatMap Operation.qubits).map value, v < b := by
          simp only [hvalues]
        rw [List.forall_mem_map, List.forall_mem_map] at hall
        rw [hbound, hbound', hall]
      have hn : n = n' := le_antisymm ((hsame n').mpr le_rfl) ((hsame n).mp le_rfl)
      exact heq.trans ((congrArg Float.ofNat hn).trans heq'.symm)

/-- What classification records of a writable circuit: nothing but measurements, of one kind. -/
theorem Writable.record {o : Options} {ops : List Operation} (h : Writable o ops) :
    (ops.foldl Metadata.record .empty).inputs = .empty ∧
      (ops.foldl Metadata.record .empty).validate false = .ok () := by
  obtain ⟨form, hform⟩ := h.oneForm
  let Recorded (m : Metadata) : Prop :=
    m.inputs = .empty ∧ m.wantsStateVector = false ∧
      (form = .single → m.repeated = []) ∧ (form ≠ .single → m.single = [])
  have hfold : Recorded (ops.foldl Metadata.record .empty) := by
    refine List.foldlRecOn ops Metadata.record ⟨rfl, rfl, fun _ => rfl, fun _ => rfl⟩ ?_
    rintro m ⟨hinputs, hstate, hrepeated, hsingle⟩ op hop
    have hop' := h.operations op hop
    have hkind := hform op hop
    cases op with
    | measure s =>
        refine ⟨hinputs, hstate, hrepeated, fun hne => ?_⟩
        exact absurd (hkind .single rfl).symm hne
    | measureRepeatedly r =>
        obtain ⟨readout, count, mapping⟩ := r
        refine ⟨hinputs, hstate, fun heq => ?_, hsingle⟩
        cases mapping with
        | none => cases (hkind .whole rfl).trans heq
        | some mapping => cases (hkind .mapped rfl).trans heq
    | gate g => exact ⟨hinputs, hstate, hrepeated, hsingle⟩
    | define d => exact ⟨hinputs, hstate, hrepeated, hsingle⟩
    | _ => exact absurd hop' id
  obtain ⟨hinputs, hstate, hrepeated, hsingle⟩ := hfold
  refine ⟨hinputs, ?_⟩
  unfold Metadata.validate
  rw [hstate]
  by_cases hs : form = .single
  · rw [hrepeated hs]
    rfl
  · rw [hsingle hs]
    simp

theorem IsWritable.isWritten {o : Options} {ds : List Declaration} {op : Operation}
    (h : IsWritable o ds op) : Classified.isWritten op = true := by
  cases op with
  | setShots s => exact absurd h id
  | getStateVector readout => exact absurd h id
  | getDensityMatrix readout => exact absurd h id
  | setStateVector amplitudes => exact absurd h id
  | _ => rfl

def body (o : Options) (ops : List Operation) : Body :=
  ⟨(Declaration.collect ops).map Declaration.line, ops.flatMap (written o), none⟩

theorem Writable.compile_eq {o : Options} {ops : List Operation} (h : Writable o ops) :
    compile o ops false = .ok
      ⟨Program.compose o.register (Backend.size o ⟨none, ops⟩)
        ((body o ops).declarations.map Line.terminated) ((body o ops).lines.map Line.terminated),
        Backend.size o ⟨none, ops⟩, body o ops⟩ := by
  obtain ⟨hinputs, hvalid⟩ := h.record
  have hfilter : ops.filter Classified.isWritten = ops :=
    List.filter_eq_self.mpr (fun op hop => (h.operations op hop).isWritten)
  have hrun : Classified.run ⟨.empty none, .empty, none⟩ ops =
      .ok ⟨⟨none, ops⟩, ops.foldl Metadata.record .empty,
        ops.foldl Classified.nextState none⟩ := by
    rw [Classified.run_eq_ok
      (fun op hop _ q hq => ((h.operations op hop).isIndex q hq).1)]
    unfold Classified.after
    rw [hfilter]
    rfl
  have hclassified : Classified.ofOperations none ops false =
      .ok ⟨⟨none, ops⟩, ops.foldl Metadata.record .empty,
        ops.foldl Classified.nextState none⟩ := by
    unfold Classified.ofOperations
    rw [hrun]
    simp only [Except.mapError, hvalid, bind, Except.bind]
    rfl
  have hcalculator : calculator o (ops.foldl Metadata.record .empty) =
      substitutionCalculator o := by
    unfold calculator
    rw [hinputs]
    rfl
  have hbody := Body.ofOperations_eq_ok (fun _ => rfl) (fun op hop hdef =>
    ofOperation_eq h.unnamed (h.operations op hop) hdef)
  unfold compile
  rw [hclassified]
  simp only [Except.mapError, bind, Except.bind, hcalculator, Bool.false_eq_true, if_false, hbody]
  rfl

end OpenQasm.Backend

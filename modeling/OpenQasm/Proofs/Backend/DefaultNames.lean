import OpenQasm.Proofs.Backend.Printing
import OpenQasm.Proofs.Number.Growth
import OpenQasm.Proofs.Table

/-!
# Elements of a register as supplied names

Names can be supplied that are what the qubits are called without any: the elements of a register,
counted one by one. Counting is exact up to `2 ^ 53`, where it stands still, so these names exist up
to that number of elements and for no greater number.

With these names every operation is printed as it is without names, in its place and with the same
errors, except for the measurement of all qubits. Without names this is one line for the whole
register, and with names one line for each of them.

What a qubit is called is all that the writing of an operation asks of the names. That the two ways
agree is therefore a statement about single qubits, which the operations pass on to their lines and
the run to the body. The supplied names stand in ascending order, so sorting them changes nothing.
-/
namespace OpenQasm

open Placeholder
open Number (value)

namespace Number

theorem sameKey_iff_value {x y : Float} (hx : x.isFinite = true) (hy : y.isFinite = true) :
    sameKey x y = true ↔ value x = value y := by
  unfold sameKey
  rw [isNaN_eq_false hx, Bool.false_and, Bool.or_false, beq_iff_value hx hy]

theorem exact_ofNat {k : ℕ} (hk : k ≤ 2 ^ 53) :
    (Float.ofNat k).isFinite = true ∧ value (Float.ofNat k) = k := by
  rcases hk.lt_or_eq with hlt | rfl
  · exact ⟨isFinite_ofNat hlt, value_ofNat hlt⟩
  · decide +kernel

theorem ofNat_add_one {k : ℕ} (hk : k < 2 ^ 53) : Float.ofNat k + 1 = Float.ofNat (k + 1) :=
  add_eq_ofNat (isFinite_ofNat hk) (value_ofNat hk) isFinite_one (by exact_mod_cast value_one)
    k.succ_pos

theorem two_pow_add_one : Float.ofNat (2 ^ 53) + 1 = Float.ofNat (2 ^ 53) := by
  decide +kernel

theorem ofNat_lt_of_large {x : Float} (hx : Float.ofNat (2 ^ 53) < x) {k : ℕ} (hk : k ≤ 2 ^ 53) :
    Float.ofNat k < x := by
  obtain ⟨hlast, hlastValue⟩ := exact_ofNat le_rfl
  obtain ⟨hfinite, hvalue⟩ := exact_ofNat hk
  cases hxfinite : x.isFinite with
  | true =>
      rw [lt_iff_value hlast hxfinite, hlastValue] at hx
      rw [lt_iff_value hfinite hxfinite, hvalue]
      exact lt_of_le_of_lt (by exact_mod_cast hk) hx
  | false =>
      rw [eq_infinity_of_lt hxfinite hlast hx]
      exact (lt_infinity hfinite).1

section CountBelow

variable {x : Float} (hx : ¬Float.ofNat (2 ^ 53) < x)
include hx

theorem isFinite_of_lt {y : Float} (hy : y.isFinite = true) (hlt : y < x) : x.isFinite = true := by
  by_contra hnot
  rw [eq_infinity_of_lt (Bool.not_eq_true _ ▸ hnot) hy hlt] at hx
  exact hx (lt_infinity (exact_ofNat le_rfl).1).1

theorem lt_countBelow_of_lt {y : Float} {k : ℕ} (hy : y.isFinite = true) (hvalue : value y = k)
    (hlt : y < x) : k < countBelow x := by
  have hfinite := isFinite_of_lt hx hy hlt
  rwa [lt_countBelow_iff hfinite, ← hvalue, ← lt_iff_value hy hfinite]

theorem ofNat_lt_iff_countBelow {k : ℕ} (hk : k ≤ 2 ^ 53) :
    Float.ofNat k < x ↔ k < countBelow x := by
  obtain ⟨hfinite, hvalue⟩ := exact_ofNat hk
  refine ⟨lt_countBelow_of_lt hx hfinite hvalue, fun hlt => ?_⟩
  cases hxfinite : x.isFinite with
  | true => rwa [lt_iff_value hfinite hxfinite, hvalue, ← lt_countBelow_iff hxfinite]
  | false =>
      unfold countBelow at hlt
      rw [hxfinite] at hlt
      cases hlt

theorem countBelow_le : countBelow x ≤ 2 ^ 53 := by
  by_contra hnot
  exact hx ((ofNat_lt_iff_countBelow hx le_rfl).mpr (not_le.mp hnot))

theorem not_ofNat_countBelow_lt : ¬Float.ofNat (countBelow x) < x := by
  rw [ofNat_lt_iff_countBelow hx (countBelow_le hx)]
  exact lt_irrefl _

end CountBelow

end Number

namespace QubitNames

/-- The names of the first elements of a register. -/
def first (register : String) (k : ℕ) : QubitNames :=
  ⟨(List.range k).map (fun i => (⟨Float.ofNat i⟩, element register (Float.ofNat i)))⟩

theorem insert_first (register : String) {k : ℕ} (hk : k < 2 ^ 53) :
    (first register k).insert ⟨Float.ofNat k⟩ (element register (Float.ofNat k)) =
      first register (k + 1) := by
  have hnew : ∀ e ∈ (first register k).toList,
      ((⟨Float.ofNat k⟩ : QubitKey) == e.1) = false := by
    intro e he
    obtain ⟨i, hi, rfl⟩ := List.mem_map.mp he
    have hi := List.mem_range.mp hi
    have hkeys := Number.sameKey_iff_value (Number.isFinite_ofNat hk)
      (Number.isFinite_ofNat (hi.trans hk))
    rw [Number.value_ofNat hk, Number.value_ofNat (hi.trans hk), Nat.cast_inj] at hkeys
    exact Bool.eq_false_iff.mpr (fun hkey => hi.ne (hkeys.mp hkey).symm)
  unfold Table.insert
  rw [Table.insertEntry_of_ne hnew]
  unfold first
  rw [List.range_succ, List.map_append]
  rfl

theorem elementsFrom_of_not_lt {n i : Float} (h : ¬i < n) (register : String) (turns : ℕ)
    (names : QubitNames) : elementsFrom n register turns i names = some names := by
  cases turns <;> rw [elementsFrom, if_neg h]

/-- Counting on from the first elements ends with all that lie below the number, if there is a turn
for each of the others. -/
theorem elementsFrom_first {n : Float} (hn : ¬Float.ofNat (2 ^ 53) < n) (register : String)
    {turns k : ℕ} (hk : k ≤ Number.countBelow n) (hturns : Number.countBelow n ≤ k + turns) :
    elementsFrom n register turns (Float.ofNat k) (first register k) =
      some (first register (Number.countBelow n)) := by
  induction turns generalizing k with
  | zero =>
      obtain rfl : k = Number.countBelow n := le_antisymm hk hturns
      exact elementsFrom_of_not_lt (Number.not_ofNat_countBelow_lt hn) register 0 _
  | succ turns ih =>
      rcases hk.lt_or_eq with hlt | rfl
      · have hbound : k < 2 ^ 53 := hlt.trans_le (Number.countBelow_le hn)
        rw [elementsFrom, if_pos ((Number.ofNat_lt_iff_countBelow hn hbound.le).mpr hlt),
          Number.ofNat_add_one hbound, insert_first register hbound]
        exact ih hlt (by omega)
      · exact elementsFrom_of_not_lt (Number.not_ofNat_countBelow_lt hn) register (turns + 1) _

theorem elements_eq_first {n : Float} (hn : ¬Float.ofNat (2 ^ 53) < n) (register : String) :
    elements n register = some (first register (Number.countBelow n)) :=
  elementsFrom_first hn register (Nat.zero_le _) (by simpa using Number.countBelow_le hn)

/-- Beyond `2 ^ 53` no number of turns is enough: the counter goes up to `2 ^ 53` and stays. -/
theorem elementsFrom_eq_none {n : Float} (hn : Float.ofNat (2 ^ 53) < n) (register : String)
    {k : ℕ} (hk : k ≤ 2 ^ 53) (turns : ℕ) (names : QubitNames) :
    elementsFrom n register turns (Float.ofNat k) names = none := by
  induction turns generalizing k names with
  | zero => rw [elementsFrom, if_pos (Number.ofNat_lt_of_large hn hk)]
  | succ turns ih =>
      rw [elementsFrom, if_pos (Number.ofNat_lt_of_large hn hk)]
      rcases hk.lt_or_eq with hlt | rfl
      · rw [Number.ofNat_add_one hlt]
        exact ih hlt _
      · rw [Number.two_pow_add_one]
        exact ih le_rfl _

section First

variable {count : ℕ} (hcount : count ≤ 2 ^ 53) (register : String)
include hcount

theorem get?_first {q : Float} {m : ℕ} (hm : m < count) (hq : q.isFinite = true)
    (hvalue : value q = m) : (first register count).get? ⟨q⟩ = some (element register q) := by
  unfold Table.get? first
  rw [List.lookup_eq_findSome?]
  -- some entry has the key, and whichever is found has the name of the qubit
  have hkey {i : ℕ} (hi : i < count) :
      ((⟨q⟩ : QubitKey) == ⟨Float.ofNat i⟩) = true ↔ m = i := by
    obtain ⟨hfinite, hvalue'⟩ := Number.exact_ofNat (hi.le.trans hcount)
    rw [← Nat.cast_inj (R := ℚ), ← hvalue, ← hvalue']
    exact Number.sameKey_iff_value hq hfinite
  cases hfound : List.findSome? _ _ with
  | none =>
      have hown := List.findSome?_eq_none_iff.mp hfound _
        (List.mem_map_of_mem (List.mem_range.mpr hm))
      dsimp only at hown
      rw [if_pos ((hkey hm).mpr rfl)] at hown
      cases hown
  | some name =>
      obtain ⟨entry, hentry, hname⟩ := List.exists_of_findSome?_eq_some hfound
      obtain ⟨i, hi, rfl⟩ := List.mem_map.mp hentry
      have hi := List.mem_range.mp hi
      split at hname
      next heq =>
        obtain rfl := (hkey hi).mp heq
        cases hname
        have hlt := hi.trans_le hcount
        rw [element_ofNat hlt, element_of_value hq hvalue hlt]
      next => cases hname

theorem sortOn_first :
    Number.sortOn (fun e => e.1.index) (first register count).toList =
      (first register count).toList := by
  apply Number.sortOn_of_isChain
  unfold first
  rw [List.isChain_map]
  refine (List.Pairwise.imp_of_mem ?_ List.pairwise_lt_range).isChain
  intro i j hi hj hij
  have hlt {k : ℕ} (hk : k ∈ List.range count) : k < 2 ^ 53 :=
    (List.mem_range.mp hk).trans_le hcount
  rw [Number.ofNat_lt_ofNat (hlt hj) (hlt hi)]
  exact hij.le.not_gt

end First

end QubitNames

/-- The readout of a measurement of all qubits. -/
def Operation.unmapped? : Operation → Option String
  | measureRepeatedly ⟨readout, _, none⟩ => some readout
  | _ => none

theorem Operation.eq_of_unmapped {op : Operation} {readout : String}
    (h : op.unmapped? = some readout) :
    ∃ count, op = .measureRepeatedly ⟨readout, count, none⟩ := by
  unfold unmapped? at h
  split at h
  next readout' count =>
    cases h
    exact ⟨count, rfl⟩
  next => cases h

theorem Operation.mem_qubits_of_mem_operands {op : Operation} {q : Float} (h : q ∈ op.operands) :
    q ∈ op.qubits := by
  cases op with
  | foreign name qubits => cases h
  | _ => exact (Operation.mem_operands_iff rfl).mp h

namespace Line

section Congr

variable (o : Options) {a b : Naming}

theorem qubit_congr {q : Float} (h : a.resolve q = b.resolve q) :
    Options.qubit { o with naming := a } q = Options.qubit { o with naming := b } q :=
  congrArg (Except.mapError _) h

theorem ofGate_congr {g : Gate} (h : ∀ q ∈ g.qubits, a.resolve q = b.resolve q) :
    ofGate { o with naming := a } g = ofGate { o with naming := b } g := by
  rw [ofGate_eq, ofGate_eq, mapM_congr (fun q hq => qubit_congr o (h q hq))]
  rfl

theorem ofColumn_congr {g : ColumnGate} (h : a.resolve g.qubit = b.resolve g.qubit) :
    ofColumn { o with naming := a } g = ofColumn { o with naming := b } g := by
  unfold ofColumn
  rw [qubit_congr o h]
  rfl

theorem ofMeasurement_congr {m : Measurement} (h : a.resolve m.qubit = b.resolve m.qubit) :
    ofMeasurement { o with naming := a } m = ofMeasurement { o with naming := b } m := by
  unfold ofMeasurement
  rw [qubit_congr o h]

theorem ofMapping_congr {readout : String} {count : Float} {mapping : QubitMapping}
    (h : ∀ q ∈ mapping.qubits, a.resolve q = b.resolve q) :
    ofRepeated { o with naming := a } ⟨readout, count, some mapping⟩ =
      ofRepeated { o with naming := b } ⟨readout, count, some mapping⟩ := by
  refine mapM_congr (fun e he => ?_)
  have hmem : e.1 ∈ mapping.qubits := by
    rw [← (Number.sortOn_perm id mapping.qubits).mem_iff, ← map_fst_sortOn]
    exact List.mem_map_of_mem he
  obtain ⟨qubit, bit⟩ := e
  dsimp only
  rw [qubit_congr o (h qubit hmem)]

/-- Names that agree on the qubits of an operation give the same lines, or the same error, unless
all qubits are measured. -/
theorem ofOperation_congr {op : Operation} (hop : op.unmapped? = none)
    (h : ∀ q ∈ op.qubits, a.resolve q = b.resolve q) :
    ofOperation { o with naming := a } op = ofOperation { o with naming := b } op := by
  cases op with
  | gate g => exact congrArg (Functor.map _) (ofGate_congr o h)
  | column g => exact congrArg (Functor.map _) (ofColumn_congr o (h _ (.head _)))
  | measure m => exact congrArg (Functor.map _) (ofMeasurement_congr o (h _ (.head _)))
  | measureRepeatedly m =>
      obtain ⟨readout, count, mapping⟩ := m
      cases mapping with
      | some mapping => exact ofMapping_congr o h
      | none => cases hop
  | _ => rfl

end Congr

theorem ofRepeated_unnamed {o : Options} (hnames : o.naming.names = none) (readout : String)
    (m : Float) :
    ofRepeated o ⟨readout, m, none⟩ = .ok [.measure o.naming.register readout] := by
  unfold ofRepeated
  rw [hnames]

/-- One printed line for each element of a register, measured into the bit of its number. -/
def eachElement (register readout : String) (count : ℕ) : List String :=
  (List.range count).map (fun i => measurement (indexed register i) (indexed readout i))

theorem ofRepeated_first (o : Options) {count : ℕ} (hcount : count ≤ 2 ^ 53)
    (register readout : String) (m : Float) :
    ∃ lines, ofRepeated { o with naming := ⟨o.naming.register, some (.first register count)⟩ }
        ⟨readout, m, none⟩ = .ok lines ∧
      lines.map terminated = eachElement register readout count := by
  unfold ofRepeated
  dsimp only
  rw [QubitNames.sortOn_first hcount]
  refine ⟨_, rfl, ?_⟩
  unfold QubitNames.first eachElement
  rw [List.map_map, List.map_map]
  refine List.map_congr_left (fun i hi => ?_)
  have hlt := (List.mem_range.mp hi).trans_le hcount
  change measurement (element register (Float.ofNat i)) (element readout (Float.ofNat i)) = _
  rw [element_ofNat hlt, element_ofNat hlt]

end Line

/-- Printed lines beside the same lines with the elements of a register in place of the whole of it:
each line that measures the register is replaced by those of its elements, and the others are kept.
The readouts are those of the lines that are replaced, in order. -/
inductive Spreads (register : String) (count : ℕ) :
    List String → List String → List String → Prop
  | nil : Spreads register count [] [] []
  | keep {readouts lines lines' : List String} {line : String}
      (hline : ∀ readout, line ≠ measurement register readout)
      (h : Spreads register count readouts lines lines') :
      Spreads register count readouts (line :: lines) (line :: lines')
  | replace {readouts lines lines' : List String} (readout : String)
      (h : Spreads register count readouts lines lines') :
      Spreads register count (readout :: readouts) (measurement register readout :: lines)
        (Line.eachElement register readout count ++ lines')

namespace Spreads

variable {register : String} {count : ℕ}

theorem keep_all {lines : List String}
    (h : ∀ line ∈ lines, ∀ readout, line ≠ measurement register readout) :
    Spreads register count [] lines lines := by
  induction lines with
  | nil => exact .nil
  | cons line lines ih => exact .keep (h line (.head _)) (ih fun l hl => h l (.tail _ hl))

theorem append {readouts lines lines' later ls ls' : List String}
    (h : Spreads register count readouts lines lines')
    (hlater : Spreads register count later ls ls') :
    Spreads register count (readouts ++ later) (lines ++ ls) (lines' ++ ls') := by
  induction h with
  | nil => exact hlater
  | keep hline _ ih => exact .keep hline ih
  | replace readout _ ih =>
      rw [List.append_assoc]
      exact .replace readout ih

end Spreads

namespace Body

/-- Two outcomes of writing operations: the same error, or bodies that differ only in the lines that
measure the whole register. -/
inductive Agree (register : String) (count : ℕ) (readouts : List String) :
    Except Line.Error Body → Except Line.Error Body → Prop
  | error (e : Line.Error) : Agree register count readouts (.error e) (.error e)
  | ok {lines lines' : List Line} (declarations : List Line) (cache : Option Cache)
      (h : Spreads register count readouts (lines.map Line.terminated)
        (lines'.map Line.terminated)) :
      Agree register count readouts (.ok ⟨declarations, lines, cache⟩)
        (.ok ⟨declarations, lines', cache⟩)

theorem step_unmapped {o : Line.Options} {readout : String} {m : Float} {lines : List Line}
    (h : Line.ofRepeated o ⟨readout, m, none⟩ = .ok lines) (cache : Option Cache) :
    step o cache (.measureRepeatedly ⟨readout, m, none⟩) = .ok ⟨[], lines, cache⟩ := by
  rw [step_of_not_deferred rfl rfl]
  exact congrArg (Functor.map _) h

theorem step_congr (o : Line.Options) {a b : Naming} {op : Operation} (hop : op.unmapped? = none)
    (h : ∀ q ∈ op.qubits, a.resolve q = b.resolve q) (cache : Option Cache) :
    step { o with naming := a } cache op = step { o with naming := b } cache op := by
  unfold step
  split
  next => rfl
  next axis qubit theta c =>
    have hgate (token : String) (c' : Cache) :=
      Line.ofGate_congr { o with placeholders := c'.has }
        (g := .rotation axis qubit (.expression token)) h
    rw [Line.ofOperation_congr o hop h]
    dsimp only
    rw [hgate]
  next => rw [Line.ofOperation_congr o hop h]

/-- Lines that are not for all qubits do not measure the whole register. -/
theorem keep_step {o : Line.Options} (hnames : o.naming.names = none) {cache : Option Cache}
    {op : Operation} {body : Body} (hop : op.IsNumbered) (hunmapped : op.unmapped? = none)
    (h : step o cache op = .ok body) :
    ∀ line ∈ body.lines.map Line.terminated, ∀ readout,
      line ≠ measurement o.naming.register readout := by
  intro line hline readout heq
  obtain ⟨l, hl, rfl⟩ := List.mem_map.mp hline
  rcases (prints_step hnames h).exists_actsOn hop hl with
    ⟨readout, m, rfl, -⟩ | ⟨is, hne, hacts, -⟩
  · cases hunmapped
  · exact hne (hacts.unique (.whole heq))

section First

variable (o : Line.Options) {count : ℕ} (hcount : count ≤ 2 ^ 53) (register : String)
include hcount

theorem step_first {op : Operation}
    (hop : ∀ q ∈ op.qubits, ∃ m : ℕ, m < count ∧ q.isFinite = true ∧ value q = m)
    (cache : Option Cache) :
    Agree register count op.unmapped?.toList
      (step { o with naming := ⟨register, none⟩ } cache op)
      (step { o with naming := ⟨o.naming.register, some (.first register count)⟩ } cache op) := by
  cases hunmapped : op.unmapped? with
  | some readout =>
      obtain ⟨m, rfl⟩ := Operation.eq_of_unmapped hunmapped
      obtain ⟨lines, hlines, htexts⟩ := Line.ofRepeated_first o hcount register readout m
      rw [step_unmapped (Line.ofRepeated_unnamed rfl readout m), step_unmapped hlines]
      refine .ok [] cache ?_
      rw [htexts, ← List.append_nil (Line.eachElement _ _ _)]
      exact .replace readout .nil
  | none =>
      have hresolve : ∀ q ∈ op.qubits,
          Naming.resolve ⟨o.naming.register, some (.first register count)⟩ q =
            Naming.resolve ⟨register, none⟩ q := by
        intro q hq
        obtain ⟨m, hm, hfinite, hvalue⟩ := hop q hq
        unfold Naming.resolve
        dsimp only
        rw [QubitNames.get?_first hcount register hm hfinite hvalue]
      rw [step_congr o hunmapped hresolve]
      cases hstep : step { o with naming := ⟨register, none⟩ } cache op with
      | error e => exact .error e
      | ok body =>
          have hnumbered : op.IsNumbered := fun q hq => by
            obtain ⟨m, hm, hrest⟩ := hop q (Operation.mem_qubits_of_mem_operands hq)
            exact ⟨m, hm.trans_le hcount, hrest⟩
          have hkeep := keep_step (o := { o with naming := ⟨register, none⟩ }) rfl hnumbered
            hunmapped hstep
          exact .ok _ _ (.keep_all hkeep)

theorem ofOperations_first {ops : List Operation}
    (hops : ∀ op ∈ ops, ∀ q ∈ op.qubits, ∃ m : ℕ, m < count ∧ q.isFinite = true ∧ value q = m)
    (cache : Option Cache) :
    Agree register count (ops.filterMap Operation.unmapped?)
      (ofOperations { o with naming := ⟨register, none⟩ } cache ops)
      (ofOperations { o with naming := ⟨o.naming.register, some (.first register count)⟩ }
        cache ops) := by
  induction ops generalizing cache with
  | nil =>
      change Agree register count [] (.ok ⟨[], [], cache⟩) (.ok ⟨[], [], cache⟩)
      exact .ok [] cache .nil
  | cons op ops ih =>
      have hreadouts : (op :: ops).filterMap Operation.unmapped? =
          op.unmapped?.toList ++ ops.filterMap Operation.unmapped? := by
        cases hop : op.unmapped? <;> simp [hop]
      have hhead := step_first o hcount register (hops op (.head _)) cache
      rw [ofOperations, ofOperations, hreadouts]
      generalize step _ cache op = unnamed at hhead ⊢
      generalize step _ cache op = named at hhead ⊢
      cases hhead with
      | error e => exact .error e
      | ok declarations cache' hlines =>
          have htail := ih (fun op' hop' => hops op' (.tail _ hop')) cache'
          change Agree register count _ (ofOperations _ cache' ops >>= _)
            (ofOperations _ cache' ops >>= _)
          generalize ofOperations _ cache' ops = unnamed at htail ⊢
          generalize ofOperations _ cache' ops = named at htail ⊢
          cases htail with
          | error e => exact .error e
          | ok declarations' cache'' hlater =>
              refine .ok _ _ ?_
              rw [List.map_append, List.map_append]
              exact hlines.append hlater

end First

end Body

namespace Circuit

/-- The elements of a register as names, against the register without names. More than `2 ^ 53`
elements are not counted to an end in any number of turns. Otherwise a circuit whose qubits lie
below the number of elements has the same outcome both ways, with a cache or without one: the same
error, or the same declarations, cache and printed lines, except that the lines of the elements
stand in place of each line for the whole register. The lines replaced are those of the measurements
of all qubits. -/
theorem body_elements_agree (o : Line.Options) (register : String) (n : Float) {c : Circuit}
    (hvalid : c.Valid) (hbelow : ∀ op ∈ c.operations, ∀ q ∈ op.qubits, q < n)
    (cache : Option Cache) :
    (Float.ofNat (2 ^ 53) < n → ∀ turns,
      QubitNames.elementsFrom n register turns 0 .empty = none) ∧
    (¬Float.ofNat (2 ^ 53) < n → ∃ names, QubitNames.elements n register = some names ∧
      Body.Agree register (Number.countBelow n) (c.operations.filterMap Operation.unmapped?)
        (Body.ofOperations { o with naming := ⟨register, none⟩ } cache c.operations)
        (Body.ofOperations { o with naming := ⟨o.naming.register, some names⟩ } cache
          c.operations)) := by
  refine ⟨fun hn turns => QubitNames.elementsFrom_eq_none hn register (Nat.zero_le _) turns .empty,
    fun hn => ?_⟩
  have hops : ∀ op ∈ c.operations, ∀ q ∈ op.qubits,
      ∃ m : ℕ, m < Number.countBelow n ∧ q.isFinite = true ∧ value q = m := by
    intro op hop q hq
    obtain ⟨hfinite, m, hvalue⟩ := Number.isNatural_iff.mp (hvalid op hop q hq)
    exact ⟨m, Number.lt_countBelow_of_lt hn hfinite hvalue (hbelow op hop q hq), hfinite, hvalue⟩
  exact ⟨_, QubitNames.elements_eq_first hn register,
    Body.ofOperations_first o (Number.countBelow_le hn) register hops cache⟩

/-- All three qubits are measured between a gate by a deferred angle and the measurement of two
mapped qubits. -/
def measuredTwice : Circuit :=
  ⟨none, [.define ⟨.bit, "ro", 3, true⟩, .gate (.rotation .x 1 (.expression "a+b")),
    .measureRepeatedly ⟨"ro", 5, none⟩,
    .measureRepeatedly ⟨"ro", 5, some ⟨[("2", 1), ("0", 0)]⟩⟩]⟩

/-- The printed lines of a circuit with deferred angles. -/
def printed (naming : Naming) (c : Circuit) : Option (List String) :=
  (Body.ofOperations ⟨naming, none, fun _ => false⟩ (some .empty) c.operations).toOption.map
    (fun body => body.lines.map Line.terminated)

theorem body_elements_agree_measuredTwice :
    measuredTwice.Valid ∧
      (∀ op ∈ measuredTwice.operations, ∀ q ∈ op.qubits, q < (3 : Float)) ∧
      ¬Float.ofNat (2 ^ 53) < 3 ∧
      printed ⟨"a", none⟩ measuredTwice =
        some ["rx(sym_1298c425) a[1];", "measure a -> ro;", "measure a[0] -> ro[0];",
          "measure a[2] -> ro[1];"] ∧
      ∃ names, QubitNames.elements 3 "a" = some names ∧
        printed ⟨"q", some names⟩ measuredTwice =
          some ["rx(sym_1298c425) a[1];", "measure a[0] -> ro[0];", "measure a[1] -> ro[1];",
            "measure a[2] -> ro[2];", "measure a[0] -> ro[0];", "measure a[2] -> ro[1];"] ∧
        Body.Agree "a" 3 ["ro"]
          (Body.ofOperations ⟨⟨"a", none⟩, none, fun _ => false⟩ (some .empty)
            measuredTwice.operations)
          (Body.ofOperations ⟨⟨"q", some names⟩, none, fun _ => false⟩ (some .empty)
            measuredTwice.operations) := by
  have hvalid : measuredTwice.Valid := by
    unfold Valid
    decide +kernel
  have hbelow : ∀ op ∈ measuredTwice.operations, ∀ q ∈ op.qubits, q < (3 : Float) := by
    decide +kernel
  have hthree : ¬Float.ofNat (2 ^ 53) < 3 := by
    decide +kernel
  have hcount : Number.countBelow 3 = 3 := by
    decide +kernel
  obtain ⟨names, hnames, hagree⟩ := (body_elements_agree ⟨⟨"q", none⟩, none, fun _ => false⟩ "a" 3
    hvalid hbelow (some .empty)).2 hthree
  rw [hcount] at hagree
  refine ⟨hvalid, hbelow, hthree, by decide +kernel, names, hnames, ?_, hagree⟩
  rw [QubitNames.elements_eq_first hthree, hcount] at hnames
  cases hnames
  decide +kernel

end Circuit

end OpenQasm

import OpenQasm.Proofs.Backend.Problems
import OpenQasm.Proofs.Backend.Writing

/-!
# The qubits of a printed line

A printed line names the qubits that it acts on as elements of the register: a gate at its end,
separated by commas, and a measurement between its first word and the arrow. Which elements these
are can be read off the line in one way only, whatever the register is called. From the end of a
gate, or after the first word of a measurement, the name of the register is passed over and the
digits of the number are followed up to the bracket.

Without names of their own, qubits are printed as they are given by the operations, one operation
after another. A measurement of all qubits is the only operation whose line has no element.
-/
namespace OpenQasm

open Placeholder
open Number (value)

/-- An element of a register by its number. -/
def indexed (register : String) (i : ℕ) : String :=
  register ++ "[" ++ toString i ++ "]"

/-- The printed line of a measurement. -/
def measurement (source target : String) : String :=
  "measure " ++ source ++ " -> " ++ target ++ ";"

/-- The numbers of the elements of a register that a printed line acts on. -/
inductive ActsOn (register line : String) : List ℕ → Prop
  | gate {head : String} {is : List ℕ} (hgate : ¬"measure ".toList <+: line.toList)
      (hline : line = head ++ " " ++ Text.join "," (is.map (indexed register)) ++ ";") :
      ActsOn register line is
  | element {i : ℕ} {target : String} (hline : line = measurement (indexed register i) target) :
      ActsOn register line [i]
  | whole {target : String} (hline : line = measurement register target) :
      ActsOn register line []

theorem element_of_value {x : Float} {n : ℕ} (hx : x.isFinite = true) (hv : value x = n)
    (h : n < 2 ^ 53) (register : String) : element register x = indexed register n := by
  have htext : Number.text x = toString n := by
    rw [← String.toList_inj]
    unfold Number.text
    rw [String.toList_ofList, Number.chars_of_value hx hv h, Nat.toString_eq_repr, Nat.toList_repr]
    rfl
  unfold element indexed
  rw [htext]

theorem element_ofNat {n : ℕ} (h : n < 2 ^ 53) (register : String) :
    element register (Float.ofNat n) = indexed register n :=
  element_of_value (Number.isFinite_ofNat h) (Number.value_ofNat h) h register

theorem toList_indexed (register : String) (i : ℕ) :
    (indexed register i).toList = register.toList ++ '[' :: (Nat.toDigits 10 i ++ [']']) := by
  unfold indexed
  simp

theorem toDigits_inj {i j : ℕ} (h : Nat.toDigits 10 i = Nat.toDigits 10 j) : i = j := by
  simpa using congrArg (fun ds => Nat.ofDigitChars 10 ds 0) h

theorem digits_append_inj {ds es rest rest' : List Char} (hds : ∀ c ∈ ds, c.isDigit = true)
    (hes : ∀ c ∈ es, c.isDigit = true) {c c' : Char} (hc : c.isDigit = false)
    (hc' : c'.isDigit = false) (h : ds ++ c :: rest = es ++ c' :: rest') :
    ds = es ∧ c :: rest = c' :: rest' := by
  have hstop {c : Char} (hc : c.isDigit = false) (rest : List Char) :
      (c :: rest).takeWhile Char.isDigit = [] := by
    rw [List.takeWhile_cons_of_neg (by simp [hc])]
  obtain ⟨hrun, hrest⟩ := Text.takeWhile_append_stop hds (hstop hc rest)
  obtain ⟨hrun', hrest'⟩ := Text.takeWhile_append_stop hes (hstop hc' rest')
  rw [h] at hrun hrest
  exact ⟨hrun.symm.trans hrun', hrest.symm.trans hrest'⟩

/-- An element at the end of a text can be taken off in one way. -/
theorem append_indexed_inj {register : String} {i j : ℕ} {before before' : List Char}
    (h : before ++ (indexed register i).toList = before' ++ (indexed register j).toList) :
    before = before' ∧ i = j := by
  have hreversed (before : List Char) (k : ℕ) :
      (before ++ (indexed register k).toList).reverse =
        ']' :: ((Nat.toDigits 10 k).reverse ++ '[' :: (before ++ register.toList).reverse) := by
    rw [toList_indexed]
    simp
  have hdigits (k : ℕ) : ∀ c ∈ (Nat.toDigits 10 k).reverse, c.isDigit = true := fun _ hc =>
    Decimal.isDigit_of_mem_digits (List.mem_reverse.mp hc)
  have hchars := congrArg List.reverse h
  rw [hreversed, hreversed, List.cons.injEq] at hchars
  obtain ⟨hindex, hrest⟩ := digits_append_inj (hdigits i) (hdigits j) rfl rfl hchars.2
  rw [List.cons.injEq, List.reverse_inj, List.append_cancel_right_eq] at hrest
  exact ⟨hrest.2, toDigits_inj (List.reverse_inj.mp hindex)⟩

theorem toList_measurement (source target : String) :
    (measurement source target).toList =
      "measure ".toList ++ (source.toList ++ ' ' :: ("-> ".toList ++ target.toList ++ [';'])) := by
  unfold measurement
  simp

theorem toList_measurement_indexed (register target : String) (i : ℕ) :
    (measurement (indexed register i) target).toList =
      "measure ".toList ++ (register.toList ++ '[' :: (Nat.toDigits 10 i ++
        ']' :: (" -> ".toList ++ target.toList ++ [';']))) := by
  rw [toList_measurement, toList_indexed]
  simp

theorem measurement_indexed_inj {register target target' : String} {i j : ℕ}
    (h : measurement (indexed register i) target = measurement (indexed register j) target') :
    i = j := by
  have hchars := congrArg String.toList h
  rw [toList_measurement_indexed, toList_measurement_indexed, List.append_cancel_left_eq,
    List.append_cancel_left_eq, List.cons.injEq] at hchars
  have hdigits (k : ℕ) : ∀ c ∈ Nat.toDigits 10 k, c.isDigit = true := fun _ hc =>
    Decimal.isDigit_of_mem_digits hc
  exact toDigits_inj (digits_append_inj (hdigits i) (hdigits j) rfl rfl hchars.2).1

theorem measurement_indexed_ne {register target target' : String} {i : ℕ} :
    measurement (indexed register i) target ≠ measurement register target' := by
  intro h
  have hchars := congrArg String.toList h
  rw [toList_measurement_indexed, toList_measurement, List.append_cancel_left_eq,
    List.append_cancel_left_eq] at hchars
  cases hchars

theorem join_concat {ss : List String} (h : ss ≠ []) (separator s : String) :
    Text.join separator (ss ++ [s]) = Text.join separator ss ++ separator ++ s := by
  induction ss with
  | nil => exact absurd rfl h
  | cons t ss ih =>
      cases ss with
      | nil => rfl
      | cons u ss =>
          have hrest := ih (List.cons_ne_nil u ss)
          change t ++ separator ++ Text.join separator (u :: ss ++ [s]) =
            t ++ separator ++ Text.join separator (u :: ss) ++ separator ++ s
          rw [hrest]
          simp only [String.append_assoc]

/-- A gate up to its last element: what stands before its first, or the elements before the last. -/
def beforeLast (register head : String) (is : List ℕ) : String :=
  if is = [] then head ++ " "
  else head ++ " " ++ Text.join "," (is.map (indexed register)) ++ ","

theorem gate_concat (register head : String) (is : List ℕ) (i : ℕ) :
    head ++ " " ++ Text.join "," ((is ++ [i]).map (indexed register)) =
      beforeLast register head is ++ indexed register i := by
  unfold beforeLast
  split
  next h =>
    subst h
    rfl
  next h =>
    rw [List.map_append, List.map_singleton, join_concat (by simpa using h)]
    simp only [String.append_assoc]

theorem getLast?_append_char (s : String) (c : Char) :
    (s ++ c.toString).toList.getLast? = some c := by
  simp

theorem getLast?_beforeLast (register head : String) (is : List ℕ) :
    (beforeLast register head is).toList.getLast? = some (if is = [] then ' ' else ',') := by
  unfold beforeLast
  split
  next => exact getLast?_append_char _ ' '
  next => exact getLast?_append_char _ ','

/-- What stands before the last element tells whether it is the only one. -/
theorem beforeLast_inj {register head head' : String} {is js : List ℕ}
    (h : beforeLast register head is = beforeLast register head' js) :
    is = [] ∧ js = [] ∨
      head ++ " " ++ Text.join "," (is.map (indexed register)) =
        head' ++ " " ++ Text.join "," (js.map (indexed register)) := by
  have hlast := congrArg (fun s : String => s.toList.getLast?) h
  rw [getLast?_beforeLast, getLast?_beforeLast, Option.some.injEq] at hlast
  by_cases his : is = [] <;> by_cases hjs : js = []
  · exact .inl ⟨his, hjs⟩
  · rw [if_pos his, if_neg hjs] at hlast
    cases hlast
  · rw [if_neg his, if_pos hjs] at hlast
    cases hlast
  · unfold beforeLast at h
    rw [if_neg his, if_neg hjs, String.append_left_inj] at h
    exact .inr h

theorem gate_nil_ne (register head head' : String) (is : List ℕ) (i : ℕ) :
    head ++ " " ++ Text.join "," (([] : List ℕ).map (indexed register)) ≠
      beforeLast register head' is ++ indexed register i := by
  intro h
  have hblank : (head ++ " " ++ "").toList.getLast? = some ' ' := by
    rw [String.append_empty]
    exact getLast?_append_char _ ' '
  have hbracket : (beforeLast register head' is ++ indexed register i).toList.getLast? =
      some ']' := by
    unfold indexed
    rw [← String.append_assoc]
    exact getLast?_append_char _ ']'
  rw [← h] at hbracket
  exact absurd (hblank.symm.trans hbracket) (by decide)

/-- The elements at the end of a gate can be read in one way, from the last to the first. -/
theorem gate_inj {register head head' : String} {is js : List ℕ}
    (h : head ++ " " ++ Text.join "," (is.map (indexed register)) =
      head' ++ " " ++ Text.join "," (js.map (indexed register))) : is = js := by
  induction is using List.reverseRecOn generalizing js with
  | nil =>
      obtain rfl | ⟨js, j, rfl⟩ := js.eq_nil_or_concat'
      · rfl
      · rw [gate_concat] at h
        exact absurd h (gate_nil_ne _ _ _ _ _)
  | append_singleton is i ih =>
      obtain rfl | ⟨js, j, rfl⟩ := js.eq_nil_or_concat'
      · rw [gate_concat] at h
        exact absurd h.symm (gate_nil_ne _ _ _ _ _)
      · rw [gate_concat, gate_concat, ← String.toList_inj, String.toList_append,
          String.toList_append] at h
        obtain ⟨hbefore, rfl⟩ := append_indexed_inj h
        obtain ⟨rfl, rfl⟩ | hrest := beforeLast_inj (String.toList_inj.mp hbefore)
        · rfl
        · rw [ih hrest]

/-- What a printed line acts on can be read in one way. -/
theorem ActsOn.unique {register line : String} {is js : List ℕ} (h : ActsOn register line is)
    (h' : ActsOn register line js) : is = js := by
  have hmeasure {source target : String} (hline : line = measurement source target) :
      "measure ".toList <+: line.toList := by
    rw [hline, toList_measurement]
    exact List.prefix_append _ _
  cases h with
  | gate hgate hline =>
      cases h' with
      | gate _ hline' =>
          rw [hline, String.append_left_inj] at hline'
          exact gate_inj hline'
      | element hline' => exact absurd (hmeasure hline') hgate
      | whole hline' => exact absurd (hmeasure hline') hgate
  | element hline =>
      cases h' with
      | gate hgate _ => exact absurd (hmeasure hline) hgate
      | element hline' => rw [measurement_indexed_inj (hline.symm.trans hline')]
      | whole hline' => exact absurd (hline.symm.trans hline') measurement_indexed_ne
  | whole hline =>
      cases h' with
      | gate hgate _ => exact absurd (hmeasure hline) hgate
      | element hline' => exact absurd (hline'.symm.trans hline) measurement_indexed_ne
      | whole _ => rfl

theorem exists_numbers {qs : List Float}
    (h : ∀ q ∈ qs, ∃ i : ℕ, i < 2 ^ 53 ∧ q.isFinite = true ∧ value q = i) :
    ∃ is : List ℕ, qs.map value = is.map (fun i : ℕ => (i : ℚ)) ∧
      ∀ register, qs.map (element register) = is.map (indexed register) := by
  induction qs with
  | nil => exact ⟨[], rfl, fun _ => rfl⟩
  | cons q qs ih =>
      obtain ⟨i, hi, hfinite, hvalue⟩ := h q (.head _)
      obtain ⟨is, hvalues, helements⟩ := ih (fun q hq => h q (.tail _ hq))
      refine ⟨i :: is, ?_, fun register => ?_⟩
      · rw [List.map_cons, List.map_cons, hvalue, hvalues]
      · rw [List.map_cons, List.map_cons, element_of_value hfinite hvalue hi, helements]

theorem exists_of_forall₂ {α β : Type} {R : α → β → Prop} {xs : List α} {ys : List β}
    (h : List.Forall₂ R xs ys) {x : α} (hx : x ∈ xs) : ∃ y ∈ ys, R x y := by
  induction h with
  | nil => cases hx
  | cons hxy _ ih =>
      rcases List.mem_cons.mp hx with rfl | hx
      · exact ⟨_, .head _, hxy⟩
      · obtain ⟨y, hy, hxy⟩ := ih hx
        exact ⟨y, .tail _ hy, hxy⟩

namespace Line

/-- The qubits that a line names as elements of a register. -/
inductive Uses (register : String) : Line → List Float → Prop
  | apply {mnemonic : String}
      (hmnemonic : mnemonic = "u3" ∨ ∃ kind : GateKind, mnemonic = kind.mnemonic)
      (parameters : List String) (qs : List Float) :
      Uses register (.apply mnemonic parameters (qs.map (element register))) qs
  | measure (q : Float) (target : String) :
      Uses register (.measure (element register q) target) [q]

theorem mnemonic_start {mnemonic : String}
    (h : mnemonic = "u3" ∨ ∃ kind : GateKind, mnemonic = kind.mnemonic) :
    ∃ c cs, mnemonic.toList = c :: cs ∧ c ≠ 'm' := by
  rcases h with rfl | ⟨kind, rfl⟩
  · exact ⟨_, _, rfl, by decide⟩
  · cases kind with
    | rotation axis => cases axis <;> exact ⟨_, _, rfl, by decide⟩
    | fixed gate => cases gate <;> exact ⟨_, _, rfl, by decide⟩
    | pair gate => cases gate <;> exact ⟨_, _, rfl, by decide⟩

theorem terminated_apply_start {mnemonic : String} {c : Char} {cs : List Char}
    (h : mnemonic.toList = c :: cs) (parameters operands : List String) :
    (apply mnemonic parameters operands).terminated.toList.head? = some c := by
  unfold terminated text
  dsimp only
  split <;> simp [h]

theorem Uses.actsOn {register : String} {l : Line} {qs : List Float} {is : List ℕ}
    (h : l.Uses register qs) (his : qs.map (element register) = is.map (indexed register)) :
    ActsOn register l.terminated is := by
  cases h with
  | apply hmnemonic parameters =>
      rw [his]
      refine .gate ?_ rfl
      rintro ⟨rest, hrest⟩
      obtain ⟨c, cs, hstart, hc⟩ := mnemonic_start hmnemonic
      have hhead := terminated_apply_start hstart parameters (is.map (indexed register))
      rw [← hrest] at hhead
      exact hc (Option.some.inj hhead).symm
  | measure q target =>
      obtain ⟨i, rfl, hi⟩ := List.map_eq_singleton_iff.mp his.symm
      rw [← hi]
      exact .element rfl

end Line

namespace Operation

/-- The lines of an operation: one that measures the whole register, or lines that name the qubits
of the operation in order, each at least one. -/
inductive Prints (register : String) : Operation → List Line → Prop
  | whole (readout : String) (count : Float) :
      Prints register (.measureRepeatedly ⟨readout, count, none⟩) [.measure register readout]
  | elements {op : Operation} {lines : List Line} {qss : List (List Float)}
      (h : List.Forall₂ (Line.Uses register) lines qss) (hne : [] ∉ qss)
      (hqubits : qss.flatten = op.operands) : Prints register op lines

theorem prints_nil {register : String} {op : Operation} (h : op.operands = []) :
    op.Prints register [] :=
  .elements .nil List.not_mem_nil h.symm

theorem prints_singleton {register : String} {op : Operation} {l : Line}
    (h : l.Uses register op.operands) (hne : op.operands ≠ []) : op.Prints register [l] :=
  .elements (.cons h .nil) (by simpa using hne.symm) (by simp)

/-- Qubits are printed by their numbers, if these are below `2 ^ 53`. -/
def IsNumbered (op : Operation) : Prop :=
  ∀ q ∈ op.operands, ∃ i : ℕ, i < 2 ^ 53 ∧ q.isFinite = true ∧ value q = i

variable {register : String} {op : Operation} {lines : List Line}

/-- Each line of an operation acts on some of its qubits, or else on the whole register. -/
theorem Prints.exists_actsOn (h : op.Prints register lines) (hop : op.IsNumbered) {l : Line}
    (hl : l ∈ lines) :
    (∃ readout count, op = .measureRepeatedly ⟨readout, count, none⟩ ∧
      l = .measure register readout) ∨
    ∃ is, is ≠ [] ∧ ActsOn register l.terminated is ∧ ∀ i ∈ is, ∃ q ∈ op.operands, value q = i := by
  cases h with
  | whole readout count => exact .inl ⟨readout, count, rfl, List.mem_singleton.mp hl⟩
  | elements huses hne hqubits =>
      obtain ⟨qs, hqs, hl⟩ := exists_of_forall₂ huses hl
      have hmem : ∀ q ∈ qs, q ∈ op.operands := fun q hq => by
        rw [← hqubits]
        exact List.mem_flatten_of_mem hqs hq
      obtain ⟨is, hvalues, helements⟩ := exists_numbers (fun q hq => hop q (hmem q hq))
      refine .inr ⟨is, ?_, hl.actsOn (helements register), fun i hi => ?_⟩
      · rintro rfl
        exact hne (List.map_eq_nil_iff.mp hvalues ▸ hqs)
      · have hi : (i : ℚ) ∈ qs.map value := hvalues ▸ List.mem_map_of_mem hi
        obtain ⟨q, hq, hvalue⟩ := List.mem_map.mp hi
        exact ⟨q, hmem q hq, hvalue⟩

theorem Prints.exists_line (h : op.Prints register lines) (hop : op.IsNumbered) {q : Float}
    (hq : q ∈ op.operands) :
    ∃ l ∈ lines, ∃ is, ActsOn register l.terminated is ∧ ∃ i ∈ is, value q = i := by
  cases h with
  | whole readout count => cases hq
  | elements huses hne hqubits =>
      rw [← hqubits] at hq
      obtain ⟨qs, hqs, hq⟩ := List.mem_flatten.mp hq
      obtain ⟨l, hl, huse⟩ := exists_of_forall₂ huses.flip hqs
      obtain ⟨is, hvalues, helements⟩ := exists_numbers (fun q hq => hop q (by
        rw [← hqubits]
        exact List.mem_flatten_of_mem hqs hq))
      have hvalue : value q ∈ is.map (fun i : ℕ => (i : ℚ)) := hvalues ▸ List.mem_map_of_mem hq
      obtain ⟨i, hi, heq⟩ := List.mem_map.mp hvalue
      exact ⟨l, hl, is, huse.actsOn (helements register), i, hi, heq.symm⟩

end Operation

namespace Line

variable {o : Options}

theorem qubit_of_unnamed (hnames : o.naming.names = none) (q : Float) :
    o.qubit q = .ok (element o.naming.register q) := by
  unfold Options.qubit Naming.resolve
  rw [hnames]
  rfl

theorem uses_ofGate (hnames : o.naming.names = none) {g : Gate} {l : Line}
    (h : ofGate o g = .ok l) : l.Uses o.naming.register g.qubits := by
  rw [ofGate_eq] at h
  obtain ⟨parameters, -, h⟩ := exists_of_bind_ok h
  obtain ⟨operands, hoperands, h⟩ := exists_of_bind_ok h
  cases h
  have hmap : g.qubits.mapM o.qubit = .ok (g.qubits.map (element o.naming.register)) := by
    refine mapM_eq_ok ?_
    rw [List.forall₂_map_right_iff]
    exact List.forall₂_same.mpr (fun q _ => qubit_of_unnamed hnames q)
  rw [hmap] at hoperands
  cases hoperands
  exact .apply (.inr ⟨g.kind, rfl⟩) _ _

theorem uses_ofColumn (hnames : o.naming.names = none) {g : ColumnGate} {l : Line}
    (h : ofColumn o g = .ok l) : l.Uses o.naming.register [g.qubit] := by
  obtain ⟨angles, operand, hoperand, rfl⟩ := ofColumn_ok h
  rw [qubit_of_unnamed hnames] at hoperand
  cases hoperand
  exact .apply (.inl rfl) _ [g.qubit]

theorem uses_ofMeasurement (hnames : o.naming.names = none) {q : Float} {target : String}
    {l : Line} (h : (do return Line.measure (← o.qubit q) target) = .ok l) :
    l.Uses o.naming.register [q] := by
  obtain ⟨source, hsource, h⟩ := exists_of_bind_ok h
  cases h
  rw [qubit_of_unnamed hnames] at hsource
  cases hsource
  exact .measure q target

theorem prints_ofRepeated (hnames : o.naming.names = none) {m : RepeatedMeasurement}
    {lines : List Line} (h : ofRepeated o m = .ok lines) :
    (Operation.measureRepeatedly m).Prints o.naming.register lines := by
  obtain ⟨readout, count, mapping⟩ := m
  unfold ofRepeated at h
  cases mapping with
  | none =>
      dsimp only at h
      rw [hnames] at h
      cases h
      exact .whole readout count
  | some mapping =>
      dsimp only at h
      have hlines := (forall₂_of_mapM h).flip.imp
        (fun l e hl => uses_ofMeasurement (o := o) hnames hl)
      refine .elements (List.forall₂_map_right_iff.mpr hlines) (by simp) ?_
      rw [← List.flatMap_def, ← List.map_eq_flatMap]
      exact map_fst_sortOn mapping

theorem prints_ofOperation (hnames : o.naming.names = none) {op : Operation}
    (hdef : op.isDefinition = false) {lines : List Line} (h : ofOperation o op = .ok lines) :
    op.Prints o.naming.register lines := by
  cases op with
  | gate g =>
      obtain ⟨line, hline, rfl⟩ := exists_of_map_ok h
      exact Operation.prints_singleton (uses_ofGate hnames hline) (by cases g <;> nofun)
  | column g =>
      obtain ⟨line, hline, rfl⟩ := exists_of_map_ok h
      exact Operation.prints_singleton (uses_ofColumn hnames hline) nofun
  | measure m =>
      obtain ⟨line, hline, rfl⟩ := exists_of_map_ok h
      exact Operation.prints_singleton (uses_ofMeasurement hnames hline) nofun
  | measureRepeatedly m => exact prints_ofRepeated hnames h
  | define d => cases hdef
  | input name value =>
      cases h
      exact Operation.prints_nil rfl
  | _ => cases h

end Line

namespace Body

variable {o : Line.Options} {cache : Option Cache} {body : Body}

theorem prints_step (hnames : o.naming.names = none) {op : Operation}
    (h : step o cache op = .ok body) : op.Prints o.naming.register body.lines := by
  obtain ⟨d, rfl, rfl⟩ | ⟨c, axis, qubit, theta, line, rfl, rfl, -, hline, rfl⟩ |
    ⟨hdef, -, lines, hlines, rfl⟩ := step_ok h
  · exact Operation.prints_nil rfl
  · -- The placeholders concern the angle only.
    have huses := Line.uses_ofGate (by exact hnames) hline
    exact Operation.prints_singleton huses (List.cons_ne_nil _ _)
  · exact Line.prints_ofOperation hnames hdef hlines

/-- The lines of a body are those of its operations, in order. -/
theorem prints_ofOperations (hnames : o.naming.names = none) {ops : List Operation}
    (h : ofOperations o cache ops = .ok body) :
    ∃ parts, List.Forall₂ (Operation.Prints o.naming.register) ops parts ∧
      body.lines = parts.flatten := by
  induction h using ofOperations_induction with
  | nil cache => exact ⟨[], .nil, rfl⟩
  | cons cache op ops head tail hhead htail ih =>
      obtain ⟨parts, hparts, hlines⟩ := ih
      exact ⟨head.lines :: parts, .cons (prints_step hnames hhead) hparts, by rw [hlines]; rfl⟩

end Body

end OpenQasm

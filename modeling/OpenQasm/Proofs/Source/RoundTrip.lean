import OpenQasm.Proofs.Source.Reading

/-!
# The round trip through a program

A writable circuit, compiled and read again, comes back with its definitions first, as output
registers of bits, its angles as numbers, and its mapped measurements one by one in the order of
their qubits. Compiled once more under the same options, what was read gives the same text.
-/
namespace OpenQasm.Source

open OpenQasm.Text
open Number (value)
open Backend (IsIndex IsSize IsBit IsMapping Writable)

namespace Scope

theorem step_declare {register : String} {size : Float} {ds : List Declaration} {d : Declaration}
    (hname : isName d.name.toList = true) (hregister : d.name ≠ register)
    (hlength : IsSize d.length) (hnew : ∀ e ∈ ds, e.name ≠ d.name) (line : ℕ) :
    (ofParts register size ds (ds.map redefine)).step ⟨line, d.line.text.toList⟩ =
      .ok (ofParts register size (ds ++ [d]) ((ds ++ [d]).map redefine)) := by
  obtain ⟨n, hpos, hn, heq⟩ := hlength.exists_nat
  have hcommand : Command.ofText d.line.text.toList = .declare false d.name d.length := by
    have h := ofText_declare false hname n
    rw [String.ofList_toList, ← heq] at h
    unfold Declaration.line
    rw [toList_text_declare, toList_element, heq, Number.chars_ofNat hn, ← heq]
    exact h
  have hqubits : (ofParts register size ds (ds.map redefine)).qubitRegisters.contains d.name =
      false := by
    have hne : (d.name == register) = false := by simpa using hregister
    simp [ofParts, Table.contains, Table.get?, List.lookup, hne]
  have hbits : (ofParts register size ds (ds.map redefine)).bitRegisters.contains d.name =
      false := by
    unfold Table.contains Table.get? ofParts
    dsimp only
    rw [lookup_of_not_mem hnew]
    rfl
  have hpositive : ¬ d.length < 1 := by
    have hone : (1 : Float) = Float.ofNat 1 := rfl
    rw [heq, hone, Number.ofNat_lt_ofNat hn (by norm_num)]
    omega
  have hdefined : (Circuit.mk none (ds.map redefine)).definitions.any
      (fun e => e.name == d.name) = false := by
    unfold Circuit.definitions Declaration.collect
    rw [List.filterMap_map, List.any_eq_false]
    intro e he
    obtain ⟨e', he', hdef⟩ := List.mem_filterMap.mp he
    cases hdef
    simpa [outputBits] using hnew e' he'
  have hbuild : (ofParts register size ds (ds.map redefine)).circuit.build
      (.define ⟨.bit, d.name, d.length, true⟩) = .ok ⟨none, (ds ++ [d]).map redefine⟩ := by
    change (Circuit.mk none (ds.map redefine)).build (redefine d) = _
    rw [redefine, Circuit.build_define (d := outputBits d) hlength.1 hdefined, List.map_append]
    rfl
  have hinsert : (ofParts register size ds (ds.map redefine)).bitRegisters.insert d.name d.length =
      ⟨(ds ++ [d]).map (fun d => (d.name, d.length))⟩ := by
    unfold Table.insert ofParts
    dsimp only
    rw [Table.insertEntry_of_not_mem (by simpa using hnew), List.map_append]
    rfl
  unfold step
  simp only [hcommand]
  change declare _ _ _ _ _ = _
  unfold declare
  rw [hqubits, hbits, hinsert]
  simp only [Bool.or_self, Bool.false_eq_true, if_false, hpositive]
  rw [hbuild]
  rfl

theorem reads_declarations {register : String} {size : ℕ} (before : List Declaration)
    {ds : List Declaration} (h : Declared register size (before ++ ds)) :
    (ofParts register (Float.ofNat size) before (before.map redefine)).Reads
      (ds.map (fun d => d.line.text.toList))
      (ofParts register (Float.ofNat size) (before ++ ds) ((before ++ ds).map redefine)) := by
  induction ds generalizing before with
  | nil =>
      rw [List.append_nil]
      exact Reads.nil _
  | cons d ds ih =>
      have hd : d ∈ before ++ d :: ds := List.mem_append_right _ (.head _)
      have hsplit : before ++ d :: ds = (before ++ [d]) ++ ds := by simp
      have hnew : ∀ e ∈ before, e.name ≠ d.name := by
        intro e he heq
        have hdistinct := h.distinct
        rw [List.map_append, List.nodup_append] at hdistinct
        exact hdistinct.2.2 _ (List.mem_map_of_mem he) _ (List.mem_map_of_mem (.head _)) heq
      refine Reads.cons (step_declare (h.names d hd).1 (h.names d hd).2 (h.lengths d hd) hnew) ?_
      rw [hsplit] at h ⊢
      exact ih _ h

/-- The lines of operations are read one operation after the other. -/
theorem reads_operations {register : String} {size : Float} {ds : List Declaration}
    {lines : Operation → List Line} {result : Operation → List Operation} {ops : List Operation}
    (h : ∀ op ∈ ops, ∀ before, (ofParts register size ds before).Reads
      ((lines op).map (fun l => l.text.toList)) (ofParts register size ds (before ++ result op)))
    (before : List Operation) :
    (ofParts register size ds before).Reads
      ((ops.flatMap lines).map (fun l => l.text.toList))
      (ofParts register size ds (before ++ ops.flatMap result)) := by
  induction ops generalizing before with
  | nil =>
      rw [List.flatMap_nil, List.flatMap_nil, List.append_nil]
      exact Reads.nil _
  | cons op ops ih =>
      rw [List.flatMap_cons, List.map_append, List.flatMap_cons, ← List.append_assoc]
      exact Reads.append (h op (.head _) before) (ih (fun op' hop' => h op' (.tail _ hop')) _)

def qubitLine (register : String) (size : Float) : List Char :=
  "qreg".toList ++ ' ' :: (element register size).toList

theorem reads_header {register : String} {size : ℕ} {ds : List Declaration}
    (h : Declared register size ds) :
    empty.Reads ["OPENQASM 2.0".toList, "include \"qelib1.inc\"".toList,
      qubitLine register (Float.ofNat size)] (ofParts register (Float.ofNat size) [] []) := by
  have hcommand : Command.ofText (qubitLine register (Float.ofNat size)) =
      .declare true register (Float.ofNat size) := by
    have hdeclare := ofText_declare true h.isName size
    rw [String.ofList_toList] at hdeclare
    unfold qubitLine
    rw [toList_element, Number.chars_ofNat h.bounded]
    exact hdeclare
  have hpositive : ¬ Float.ofNat size < 1 := by
    have hone : (1 : Float) = Float.ofNat 1 := rfl
    have := h.positive
    rw [hone, Number.ofNat_lt_ofNat h.bounded (by norm_num)]
    omega
  have hinclude : Command.ofText "include \"qelib1.inc\"".toList = .skip := by decide +kernel
  have hsecond (n : ℕ) : { empty with hasVersion := true }.step
      ⟨n, "include \"qelib1.inc\"".toList⟩ = .ok { empty with hasVersion := true } := by
    unfold step
    simp only [hinclude]
    rfl
  have hthird (n : ℕ) : { empty with hasVersion := true }.step
      ⟨n, qubitLine register (Float.ofNat size)⟩ =
        .ok (ofParts register (Float.ofNat size) [] []) := by
    unfold step
    simp only [hcommand, Bool.not_true, Bool.false_eq_true, if_false]
    unfold declare ofParts
    simp only [hpositive]
    change Except.ok (Scope.mk _ _ _ (0 + Float.ofNat size) _) = _
    rw [Number.zero_add_ofNat h.bounded]
    rfl
  exact Reads.cons step_version (Reads.cons hsecond (Reads.cons hthird (Reads.nil _)))

end Scope

theorem slash_constants (kind : GateKind) :
    (kind.constants.map String.toList).flatten.count '/' ≤ 1 := by
  rcases kind with (_ | _ | _) | (_ | _ | _ | _ | _ | _ | _) | (_ | _ | _ | _) <;> decide

theorem plainLine_gate {register : String} (hregister : isName register.toList = true)
    (kind : GateKind) {parameters : List String}
    (hparameters : ∀ p ∈ parameters, IsSolid p.toList)
    (hslash : (parameters.map String.toList).flatten.count '/' ≤ 1) (qubits : List Float)
    (hne : qubits ≠ []) :
    PlainLine
      (Line.apply kind.mnemonic parameters (qubits.map (element register))).text.toList := by
  have hoperands : ((qubits.map (element register)).map String.toList).flatten.count '/' = 0 := by
    rw [List.count_eq_zero]
    intro hmem
    obtain ⟨w, hw, hmem⟩ := List.mem_flatten.mp hmem
    rw [List.map_map] at hw
    obtain ⟨q, -, rfl⟩ := List.mem_map.mp hw
    exact List.count_eq_zero.mp (no_slash_element hregister q) hmem
  rw [toList_text_apply]
  refine plainLine_gateText (Scope.isName_mnemonic kind) ?_ (by simpa using hne) ?_
    (by rw [hoperands]; exact hslash)
  · simpa using hparameters
  · simpa using fun q _ => isSolid_element hregister q

theorem plainLine_written {o : Backend.Options} {size : ℕ} {ds : List Declaration}
    (h : Declared o.register size ds) {op : Operation} (hop : Backend.IsWritable o ds op) :
    ∀ l ∈ Backend.written o op, PlainLine l.text.toList := by
  intro l hl
  obtain ⟨kind, parameters, qubits, hparameters, hne, rfl⟩ | ⟨q, readout, index, hbit, rfl⟩ |
    ⟨d, hd, rfl⟩ := hop.mem_written hl
  · rcases hparameters with rfl | ⟨x, hx, rfl⟩
    · exact plainLine_gate h.isName kind (Scope.isSolid_constants _) (slash_constants _) qubits hne
    · exact plainLine_gate h.isName kind (by simpa using isSolid_literal hx)
        (by simp [no_slash_literal]) qubits hne
  · obtain ⟨d, hd, rfl, -⟩ := hbit
    have hname := (h.names d hd).1
    rw [toList_text_measure]
    exact plainLine_measure (isSolid_element h.isName q) (isSolid_element hname index)
      (no_slash_element h.isName q) (no_slash_element hname index)
  · have hname := (h.names d hd).1
    rw [toList_text_measure]
    exact plainLine_measure (isSolid_name h.isName) (isSolid_name hname)
      (no_slash_name h.isName) (no_slash_name hname)

theorem plainLine_declaration {d : Declaration} (hname : isName d.name.toList = true) :
    PlainLine d.line.text.toList := by
  unfold Declaration.line
  rw [toList_text_declare]
  exact plainLine_declare rfl (isSolid_element hname _) (no_slash_element hname _)

theorem plainLine_library : PlainLine "include \"qelib1.inc\"".toList :=
  plainLine_words ["include".toList, "\"qelib1.inc\"".toList] (by simp)
    (by simp [IsWord]; decide) (by simp) (by decide)

def programLines (register : String) (size : Float) (body : Body) : List (List Char) :=
  "OPENQASM 2.0".toList :: "include \"qelib1.inc\"".toList :: Scope.qubitLine register size ::
    (body.declarations ++ body.lines).map (fun l => l.text.toList)

theorem intercalate_append_break {ws : List (List Char)} (hne : ws ≠ []) :
    List.intercalate ['\n'] ws ++ ['\n'] = ws.flatMap (· ++ ['\n']) := by
  induction ws with
  | nil => exact absurd rfl hne
  | cons w ws ih =>
      cases ws with
      | nil => simp
      | cons v ws =>
          have hrest := ih (List.cons_ne_nil _ _)
          rw [List.intercalate_cons_cons, List.append_assoc, hrest]
          rfl

theorem toList_compose (register : String) (size : Float) (body : Body) :
    (Program.compose register size (body.declarations.map Line.terminated)
      (body.lines.map Line.terminated)).toList = program (programLines register size body) := by
  unfold Program.compose program
  rw [String.toList_append, toList_join]
  change List.intercalate ['\n'] _ ++ ['\n'] = _
  rw [intercalate_append_break (by simp)]
  unfold programLines Scope.qubitLine Program.header Program.library
  simp [List.flatMap_cons, Line.terminated, List.flatMap_map, Function.comp_def]

/-- What the program of a circuit is read as: the definitions, then the operations. -/
def readBack (o : Backend.Options) (ops : List Operation) : List Operation :=
  (Declaration.collect ops).map redefine ++ ops.flatMap (reread o)

theorem Writable.declared {o : Backend.Options} {ops : List Operation} (h : Writable o ops)
    {size : ℕ} (hpos : 0 < size) (hsize : size < 2 ^ 53) :
    Declared o.register size (Declaration.collect ops) :=
  ⟨h.register, hpos, hsize, h.names, h.lengths, h.distinct⟩

/-- Reading a program: the definitions, and then what the lines of each operation are read as. -/
theorem read_program {register : String} {size : ℕ} {ops : List Operation}
    (h : Declared register size (Declaration.collect ops)) {lines : Operation → List Line}
    {result : Operation → List Operation}
    (hplain : ∀ op ∈ ops, ∀ l ∈ lines op, PlainLine l.text.toList)
    (hreads : ∀ op ∈ ops, ∀ before,
      (Scope.ofParts register (Float.ofNat size) (Declaration.collect ops) before).Reads
        ((lines op).map (fun l => l.text.toList))
        (Scope.ofParts register (Float.ofNat size) (Declaration.collect ops)
          (before ++ result op))) :
    read (Program.compose register (Float.ofNat size)
        (((Declaration.collect ops).map Declaration.line).map Line.terminated)
        ((ops.flatMap lines).map Line.terminated)) =
      .ok ⟨⟨none, (Declaration.collect ops).map redefine ++ ops.flatMap result⟩,
        Float.ofNat size⟩ := by
  obtain ⟨body, hbody⟩ : ∃ body : Body, body =
    ⟨(Declaration.collect ops).map Declaration.line, ops.flatMap lines, none⟩ := ⟨_, rfl⟩
  have hlines : programLines register (Float.ofNat size) body =
      ["OPENQASM 2.0".toList, "include \"qelib1.inc\"".toList,
        Scope.qubitLine register (Float.ofNat size)] ++
      ((Declaration.collect ops).map (fun d => d.line.text.toList) ++
        (ops.flatMap lines).map (fun l => l.text.toList)) := by
    rw [hbody]
    unfold programLines
    rw [List.map_append, List.map_map]
    rfl
  have hplainLines : ∀ l ∈ programLines register (Float.ofNat size) body, PlainLine l := by
    intro l hl
    rw [hlines] at hl
    simp only [List.mem_append, List.mem_cons, List.not_mem_nil, or_false, List.mem_map,
      List.mem_flatMap] at hl
    rcases hl with (rfl | rfl | rfl) | ⟨d, hd, rfl⟩ | ⟨l, ⟨op, hop, hl⟩, rfl⟩
    · exact plainLine_version
    · exact plainLine_library
    · exact plainLine_declare rfl (isSolid_element h.isName _) (no_slash_element h.isName _)
    · exact plainLine_declaration (h.names d hd).1
    · exact hplain op hop l hl
  have hscope : Scope.empty.Reads (programLines register (Float.ofNat size) body)
      (Scope.ofParts register (Float.ofNat size) (Declaration.collect ops)
        ((Declaration.collect ops).map redefine ++ ops.flatMap result)) := by
    rw [hlines]
    exact (Scope.reads_header h).append
      ((Scope.reads_declarations [] h).append (Scope.reads_operations hreads _))
  have htext := toList_compose register (Float.ofNat size) body
  rw [hbody] at htext
  obtain ⟨sts, hstatements, htexts⟩ := statements_program hplainLines
  unfold read
  rw [htext, ← hbody, hstatements]
  simp only [hscope sts htexts]
  rfl

theorem read_compose {o : Backend.Options} {ops : List Operation} (h : Writable o ops) :
    read (Program.compose o.register (Backend.size o ⟨none, ops⟩)
        ((Backend.body o ops).declarations.map Line.terminated)
        ((Backend.body o ops).lines.map Line.terminated)) =
      .ok ⟨⟨none, readBack o ops⟩, Backend.size o ⟨none, ops⟩⟩ := by
  obtain ⟨size, hpos, hsize, heq, hlt⟩ := h.exists_size
  have hdeclared := Writable.declared h hpos hsize
  rw [heq]
  refine read_program hdeclared ?_ ?_
  · exact fun op hop => plainLine_written hdeclared (h.operations op hop)
  · intro op hop before
    exact Scope.reads_written hdeclared (h.operations op hop)
      (fun q hq => hlt q (List.mem_flatMap.mpr ⟨op, hop, hq⟩)) before

theorem element_reindex (name : String) (x : Float) :
    element name (reindex x) = element name x := by
  have hchars : Number.chars (reindex x) = Number.chars x := by
    by_cases h : (x == 0) = true
    · have hfin := Number.isFinite_of_beq Number.isFinite_zero h
      have hvalue := (Number.beq_iff_value hfin Number.isFinite_zero).mp h
      rw [Number.value_zero] at hvalue
      rcases Number.eq_zero_of_value hfin hvalue with rfl | rfl <;> decide +kernel
    · rw [reindex, if_neg h]
  unfold element Number.text
  rw [hchars]

theorem flatMap_written_reread (o : Backend.Options) (op : Operation) :
    (reread o op).flatMap (Backend.written o) = Backend.written o op := by
  cases op with
  | gate g =>
      cases g with
      | rotation axis q theta =>
          change [Line.apply _ [Number.literal _] [element o.register (reindex q)]] = _
          rw [element_reindex]
          rfl
      | fixed gate q =>
          change [Line.apply _ _ [element o.register (reindex q)]] = _
          rw [element_reindex]
          rfl
      | pair gate control target =>
          change [Line.apply _ _
            [element o.register (reindex control), element o.register (reindex target)]] = _
          rw [element_reindex, element_reindex]
          rfl
  | measure m =>
      change [Line.measure (element o.register (reindex m.qubit))
        (element m.readout (reindex m.index))] = _
      rw [element_reindex, element_reindex]
      rfl
  | measureRepeatedly m =>
      obtain ⟨readout, count, mapping⟩ := m
      cases mapping with
      | none => rfl
      | some mapping =>
          unfold reread Backend.written
          rw [List.flatMap_map]
          simp [element_reindex, ← List.map_eq_flatMap]
  | _ => rfl

theorem definition?_reread {o : Backend.Options} {op op' : Operation} (h : op' ∈ reread o op) :
    op'.definition? = none := by
  cases op with
  | gate g =>
      cases g <;>
      · rw [List.mem_singleton.mp h]
        rfl
  | measure m =>
      rw [List.mem_singleton.mp h]
      rfl
  | measureRepeatedly m =>
      obtain ⟨readout, count, mapping⟩ := m
      cases mapping with
      | none =>
          rw [List.mem_singleton.mp h]
          rfl
      | some mapping =>
          obtain ⟨e, -, rfl⟩ := List.mem_map.mp h
          rfl
  | _ => cases h

theorem collect_readBack (o : Backend.Options) (ops : List Operation) :
    Declaration.collect (readBack o ops) =
      (Declaration.collect ops).map outputBits := by
  have hdefinitions (ds : List Declaration) :
      Declaration.collect (ds.map redefine) = ds.map outputBits := by
    induction ds with
    | nil => rfl
    | cons d ds ih => exact congrArg _ ih
  have hoperations (ops : List Operation) : Declaration.collect (ops.flatMap (reread o)) = [] := by
    unfold Declaration.collect
    rw [List.filterMap_eq_nil_iff]
    intro op' hop'
    obtain ⟨op, -, hop'⟩ := List.mem_flatMap.mp hop'
    exact definition?_reread hop'
  unfold readBack
  calc Declaration.collect ((Declaration.collect ops).map redefine ++ ops.flatMap (reread o)) =
        Declaration.collect ((Declaration.collect ops).map redefine) ++
          Declaration.collect (ops.flatMap (reread o)) := List.filterMap_append
    _ = _ := by rw [hdefinitions, hoperations, List.append_nil]

/-- The body of what is read back is the body that was read. -/
theorem body_readBack (o : Backend.Options) (ops : List Operation) :
    Backend.body o (readBack o ops) = Backend.body o ops := by
  have hlines : (readBack o ops).flatMap (Backend.written o) =
      ops.flatMap (Backend.written o) := by
    have hdefinitions (ds : List Declaration) :
        (ds.map redefine).flatMap (Backend.written o) = [] := by
      simp [redefine, Backend.written]
    unfold readBack
    rw [List.flatMap_append, hdefinitions, List.nil_append, List.flatMap_assoc]
    simp only [flatMap_written_reread]
  unfold Backend.body
  rw [collect_readBack, hlines, List.map_map]
  rfl

theorem values_reread {o : Backend.Options} {ds : List Declaration} {op : Operation}
    (h : Backend.IsWritable o ds op) :
    (((reread o op).flatMap Operation.qubits).map value).Perm (op.qubits.map value) := by
  have hindex := h.isIndex
  have hreindex : (op.qubits.map reindex).map value = op.qubits.map value := by
    rw [List.map_map]
    exact List.map_congr_left (fun q hq => value_reindex (hindex q hq))
  cases op with
  | gate g =>
      cases g with
      | rotation axis q theta => exact .of_eq hreindex
      | fixed gate q => exact .of_eq hreindex
      | pair gate control target => exact .of_eq hreindex
  | measure m => exact .of_eq hreindex
  | measureRepeatedly m =>
      obtain ⟨readout, count, mapping⟩ := m
      cases mapping with
      | none => exact .refl _
      | some mapping =>
          have hperm := (h.2 mapping rfl).1.perm_ascending.symm.map Prod.fst
          have hqubits : (reread o (.measureRepeatedly ⟨readout, count, some mapping⟩)).flatMap
              Operation.qubits = ((Backend.ascending mapping).map
                (fun e => (Float.ofNat e.1, e.2))).map Prod.fst := by
            unfold reread
            rw [List.flatMap_map, List.map_map, List.map_eq_flatMap]
            rfl
          have hkeys : Operation.qubits (.measureRepeatedly ⟨readout, count, some mapping⟩) =
              (mapping.toList.map (fun e => (Number.read e.1.toList, e.2))).map Prod.fst := by
            change (mapping.toList.map Prod.fst).map _ = _
            rw [List.map_map, List.map_map]
            rfl
          rw [hqubits, hkeys]
          exact hperm.map value
  | define d => exact .refl _
  | _ => exact absurd h id

theorem isBit_outputBits {ds : List Declaration} (hds : ∀ d ∈ ds, IsSize d.length)
    {readout : String} {index : Float} (h : IsBit ds readout index) :
    IsBit (ds.map outputBits) readout (reindex index) := by
  have hindex := h.isIndex hds
  obtain ⟨d, hd, hname, hnatural, hlt⟩ := h
  refine ⟨outputBits d, List.mem_map_of_mem hd, hname, (isIndex_reindex hindex).1, ?_⟩
  obtain ⟨k, -, hk, heq⟩ := (hds d hd).exists_nat
  have hdfin : d.length.isFinite = true := by
    rw [heq]
    exact Number.isFinite_ofNat hk
  obtain ⟨-, -, hfin, -⟩ := hindex.exists_nat
  obtain ⟨-, -, hfin', -⟩ := (isIndex_reindex hindex).exists_nat
  rw [Number.lt_iff_value hfin hdfin] at hlt
  change reindex index < d.length
  rwa [Number.lt_iff_value hfin' hdfin, value_reindex hindex]

theorem isWritable_reread {o : Backend.Options} {ds : List Declaration}
    (hds : ∀ d ∈ ds, IsSize d.length) {op op' : Operation} (h : Backend.IsWritable o ds op)
    (hop' : op' ∈ reread o op) : Backend.IsWritable o (ds.map outputBits) op' := by
  cases op with
  | gate g =>
      cases g with
      | rotation axis q theta =>
          rw [List.mem_singleton.mp hop']
          exact ⟨isIndex_reindex h.1, _, rfl, h.isFinite_angle⟩
      | fixed gate q =>
          rw [List.mem_singleton.mp hop']
          exact isIndex_reindex h
      | pair gate control target =>
          rw [List.mem_singleton.mp hop']
          have hkey := sameKey_reindex h.1 h.2.1 h.2.2
          rw [Number.sameKey, Bool.or_eq_false_iff] at hkey
          exact ⟨isIndex_reindex h.1, isIndex_reindex h.2.1, hkey.1⟩
  | measure m =>
      rw [List.mem_singleton.mp hop']
      exact ⟨isIndex_reindex h.1, isBit_outputBits hds h.2⟩
  | measureRepeatedly m =>
      obtain ⟨readout, count, mapping⟩ := m
      cases mapping with
      | none =>
          rw [List.mem_singleton.mp hop']
          obtain ⟨⟨d, hd, hname⟩, -⟩ := h
          exact ⟨⟨outputBits d, List.mem_map_of_mem hd, hname⟩, fun _ hnone => by cases hnone⟩
      | some mapping =>
          obtain ⟨hmapping, hbits⟩ := h.2 mapping rfl
          obtain ⟨e, he, rfl⟩ := List.mem_map.mp hop'
          exact ⟨Backend.isIndex_ofNat (hmapping.lt_of_mem he),
            isBit_outputBits hds (hbits _ (hmapping.exists_entry he).2)⟩
  | _ => cases hop'

/-- Mapped measurements are read back as measurements of single qubits. -/
theorem measurementForm?_reread {o : Backend.Options} {op op' : Operation}
    {form form' : Backend.MeasurementForm}
    (h : ∀ f, Backend.measurementForm? op = some f → f = form) (hop' : op' ∈ reread o op)
    (hform : Backend.measurementForm? op' = some form') :
    form' = if form = .whole then .whole else .single := by
  cases op with
  | gate g =>
      cases g <;>
      · rw [List.mem_singleton.mp hop'] at hform
        cases hform
  | measure m =>
      rw [List.mem_singleton.mp hop'] at hform
      cases hform
      rw [← h .single rfl]
      rfl
  | measureRepeatedly m =>
      obtain ⟨readout, count, mapping⟩ := m
      cases mapping with
      | none =>
          rw [List.mem_singleton.mp hop'] at hform
          cases hform
          rw [← h .whole rfl]
          rfl
      | some mapping =>
          obtain ⟨e, -, rfl⟩ := List.mem_map.mp hop'
          cases hform
          rw [← h .mapped rfl]
          rfl
  | _ => cases hop'

theorem mem_values_readBack {o : Backend.Options} {ops : List Operation} (h : Writable o ops)
    (v : ℚ) : v ∈ ((readBack o ops).flatMap Operation.qubits).map value ↔
      v ∈ (ops.flatMap Operation.qubits).map value := by
  have hdefinitions (ds : List Declaration) :
      (ds.map redefine).flatMap Operation.qubits = [] := by
    simp [redefine, Operation.qubits]
  have hop : ∀ op ∈ ops, v ∈ ((reread o op).flatMap Operation.qubits).map value ↔
      v ∈ op.qubits.map value := fun op hop => (values_reread (h.operations op hop)).mem_iff
  unfold readBack
  rw [List.flatMap_append, hdefinitions, List.nil_append, List.flatMap_assoc, List.map_flatMap,
    List.map_flatMap, List.mem_flatMap, List.mem_flatMap]
  constructor
  · rintro ⟨op, hmem, hv⟩
    exact ⟨op, hmem, (hop op hmem).mp hv⟩
  · rintro ⟨op, hmem, hv⟩
    exact ⟨op, hmem, (hop op hmem).mpr hv⟩

theorem writable_readBack {o : Backend.Options} {ops : List Operation} (h : Writable o ops) :
    Writable o (readBack o ops) := by
  have hops : ∀ op ∈ readBack o ops,
      Backend.IsWritable o (Declaration.collect (readBack o ops)) op := by
    rw [collect_readBack]
    intro op' hop'
    rcases List.mem_append.mp hop' with hop' | hop'
    · obtain ⟨d, -, rfl⟩ := List.mem_map.mp hop'
      trivial
    · obtain ⟨op, hop, hop'⟩ := List.mem_flatMap.mp hop'
      exact isWritable_reread h.lengths (h.operations op hop) hop'
  refine ⟨h.register, h.unnamed, fun n hn => ?_, ?_, ?_, ?_, hops, ?_⟩
  · obtain ⟨hsize, hlt⟩ := h.size n hn
    refine ⟨hsize, fun op hop q hq => ?_⟩
    have hmem := (mem_values_readBack h (value q)).mp
      (List.mem_map_of_mem (List.mem_flatMap.mpr ⟨op, hop, hq⟩))
    obtain ⟨q', hq', hvalue⟩ := List.mem_map.mp hmem
    obtain ⟨op', hop', hq'⟩ := List.mem_flatMap.mp hq'
    obtain ⟨-, -, hfin, -⟩ := ((hops op hop).isIndex q hq).exists_nat
    obtain ⟨-, -, hfin', -⟩ := ((h.operations op' hop').isIndex q' hq').exists_nat
    obtain ⟨k, -, hk, rfl⟩ := hsize.exists_nat
    have := hlt op' hop' q' hq'
    rwa [Number.lt_iff_value hfin' (Number.isFinite_ofNat hk), hvalue,
      ← Number.lt_iff_value hfin (Number.isFinite_ofNat hk)] at this
  · rw [collect_readBack]
    intro d hd
    obtain ⟨e, he, rfl⟩ := List.mem_map.mp hd
    exact h.names e he
  · rw [collect_readBack]
    intro d hd
    obtain ⟨e, he, rfl⟩ := List.mem_map.mp hd
    exact h.lengths e he
  · rw [collect_readBack, List.map_map]
    exact h.distinct
  · obtain ⟨form, hform⟩ := h.oneForm
    refine ⟨if form = .whole then .whole else .single, fun op' hop' f hf => ?_⟩
    rcases List.mem_append.mp hop' with hop' | hop'
    · obtain ⟨d, -, rfl⟩ := List.mem_map.mp hop'
      cases hf
    · obtain ⟨op, hop, hop'⟩ := List.mem_flatMap.mp hop'
      exact measurementForm?_reread (hform op hop) hop' hf

/-- Compiling a writable circuit succeeds, reading the text gives back its definitions and
operations with the declared number of qubits, and compiling these gives the same text. -/
theorem read_compile {o : Backend.Options} {ops : List Operation} (h : Writable o ops) :
    ∃ output, Backend.compile o ops false = .ok output ∧
      output.text = Program.compose o.register output.size
        (output.body.declarations.map Line.terminated) (output.body.lines.map Line.terminated) ∧
      read output.text = .ok ⟨⟨none, readBack o ops⟩, output.size⟩ ∧
      ∃ again, Backend.compile o (readBack o ops) false = .ok again ∧
        again.text = output.text := by
  have hagain := writable_readBack h
  refine ⟨_, h.compile_eq, rfl, read_compose h, _, hagain.compile_eq, ?_⟩
  have hsize := Backend.size_eq_of_values (o := o) hagain.isIndex h.isIndex
    (mem_values_readBack h)
  dsimp only
  rw [hsize, body_readBack]

def sampleOptions : Backend.Options :=
  ⟨"reg_1", none, none, [("x", 0.5)]⟩

/-- A circuit with an angle in that variable, a definition after gates, and a mapping out of
order. -/
def sample : List Operation :=
  [.gate (.rotation .z (-0) (.expression "-x/4")), .gate (.fixed .sqrtPauliX 3),
    .define ⟨.float, "ro", 12, false⟩, .gate (.pair .molmerSorensenXX 0 1),
    .measureRepeatedly ⟨"ro", 5, some ⟨[("10", 0), ("2", 11)]⟩⟩]

theorem writable_sample : Writable sampleOptions sample where
  register := rfl
  unnamed := rfl
  size := fun n hn => by cases hn
  names := by decide +kernel
  lengths := by
    intro d hd
    rw [List.mem_singleton.mp hd]
    constructor <;> decide +kernel
  distinct := by decide +kernel
  operations := by
    have hbit : ∀ bit ∈ ([0, 11] : List Float), IsBit (Declaration.collect sample) "ro" bit := by
      intro bit hbit
      refine ⟨_, .head _, rfl, ?_⟩
      rcases List.mem_pair.mp hbit with rfl | rfl <;> decide +kernel
    have hmapping : IsMapping ⟨[("10", 0), ("2", 11)]⟩ := by
      refine ⟨by decide +kernel, fun key hkey => ?_⟩
      rcases List.mem_pair.mp hkey with rfl | rfl
      · exact ⟨10, by norm_num, by decide +kernel⟩
      · exact ⟨2, by norm_num, by decide +kernel⟩
    intro op hop
    simp only [sample, List.mem_cons, List.not_mem_nil, or_false] at hop
    rcases hop with rfl | rfl | rfl | rfl | rfl
    · exact ⟨⟨by decide +kernel, by decide +kernel⟩, -0.125, by decide +kernel, by decide +kernel⟩
    · constructor <;> decide +kernel
    · trivial
    · exact ⟨⟨by decide +kernel, by decide +kernel⟩, ⟨by decide +kernel, by decide +kernel⟩,
        by decide +kernel⟩
    · exact ⟨⟨_, .head _, rfl⟩, fun mapping heq => by cases heq; exact ⟨hmapping, hbit⟩⟩
  oneForm := ⟨.mapped, by decide +kernel⟩

theorem read_compile_sample :
    Writable sampleOptions sample ∧
      ∃ output, Backend.compile sampleOptions sample false = .ok output ∧
        output.text = Program.compose sampleOptions.register output.size
          (output.body.declarations.map Line.terminated) (output.body.lines.map Line.terminated) ∧
        read output.text = .ok ⟨⟨none, readBack sampleOptions sample⟩, output.size⟩ ∧
        ∃ again, Backend.compile sampleOptions (readBack sampleOptions sample) false = .ok again ∧
          again.text = output.text :=
  ⟨writable_sample, read_compile writable_sample⟩

end OpenQasm.Source

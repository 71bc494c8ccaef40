import OpenQasm.Proofs.Backend.Deferring
import OpenQasm.Proofs.Source.RoundTrip

/-!
# Late binding

A program with placeholders can be read as it stands. A token is a name that has no value, so it is
kept as the angle of its rotation. Once numbers are put in place of the tokens, the program is the
one of the circuit with these numbers as angles, since no other word of it is a token. So it does
not matter whether the program is bound and then read, or read and then bound.
-/
namespace OpenQasm.Source

open OpenQasm.Text
open OpenQasm.Placeholder
open Number (value)
open Backend (IsIndex IsSize IsBit IsMapping IsWritable Deferrable placeholders deferredLines)

theorem isName_token {word : List Char} (h : IsTokenWord word) : isName word = true := by
  have hchars := h.isNameChar
  obtain ⟨hex, ending, rfl, -⟩ := h
  exact Bool.and_eq_true_iff.mpr
    ⟨rfl, List.all_eq_true.mpr (fun c hc => hchars c (.tail _ hc))⟩

theorem lex_of_isName {cs : List Char} (h : isName cs = true) :
    Expr.lex cs = .ok [.name (String.ofList cs)] := by
  cases cs with
  | nil => cases h
  | cons c cs =>
      obtain ⟨hstart, hrest⟩ := Bool.and_eq_true_iff.mp h
      have hall := List.all_eq_true.mp hrest
      rw [Expr.lex_name hstart, List.takeWhile_eq_self_iff.mpr hall,
        List.dropWhile_eq_nil_iff.mpr hall, Expr.lex_nil]
      rfl

theorem not_isDefined_token {token : String} (h : IsTokenWord token.toList) :
    Calculator.empty.isDefined token = false := by
  rw [Bool.eq_false_iff]
  intro hdefined
  obtain ⟨hex, ending, heq, -⟩ := h
  rcases (Calculator.isDefined_iff _ _).mp hdefined with hhas | rfl | rfl
  · cases hhas
  · cases heq
  · cases heq

namespace Scope

theorem parameter_token {token : String} (h : IsTokenWord token.toList) :
    parameter token.toList = .ok (.expression token) := by
  unfold parameter
  rw [String.ofList_toList]
  cases heval : Calculator.empty.evaluate (.expression token) with
  | ok x =>
      -- The token is a formula of one name, which would have to be defined.
      obtain ⟨ts, e, hlex, hparse, -⟩ := (Calculator.evaluate_eq_ok_iff _ _ _).mp heval
      rw [lex_of_isName (isName_token h), String.ofList_toList] at hlex
      cases hlex
      have hdefined := ((Expr.accepted_name (by simp)).mp (Expr.ofTokens_iff.mp hparse).1).1
      rw [not_isDefined_token h] at hdefined
      cases hdefined
  | error e =>
      have hletter : token.toList.any isNameStart = true := by
        obtain ⟨hex, ending, heq, -⟩ := h
        rw [heq]
        rfl
      dsimp only
      rw [if_pos hletter]

end Scope

/-- What an operation is read as before its angle is bound: a symbolic angle is its token. -/
def rereadDeferred (c : Cache) (op : Operation) : List Operation :=
  match op with
  | .gate (.rotation axis qubit theta) =>
      if theta.isSymbolic then
        [.gate (.rotation axis (reindex qubit) (.expression (c.stage theta).1))]
      else reread .default op
  | op => reread .default op

theorem rereadDeferred_of_symbolic (c : Cache) (axis : Axis) (qubit : Float) {theta : Parameter}
    (h : theta.isSymbolic = true) :
    rereadDeferred c (.gate (.rotation axis qubit theta)) =
      [.gate (.rotation axis (reindex qubit) (.expression (c.stage theta).1))] :=
  if_pos h

theorem rereadDeferred_of_not_deferred (c : Cache) {op : Operation} (h : op.deferred? = none) :
    rereadDeferred c op = reread .default op := by
  cases op with
  | gate g =>
      cases g with
      | rotation axis qubit theta => exact if_neg (Operation.not_symbolic_of_deferred h)
      | _ => rfl
  | _ => rfl

/-- What the program of a circuit is read as before its angles are bound. -/
def readDeferred (c : Cache) (ops : List Operation) : List Operation :=
  (Declaration.collect ops).map redefine ++ ops.flatMap (rereadDeferred c)

/-- An operation with the value of its angle, if that is a token with a value. -/
def bindToken (values : Table String Float) : Operation → Operation
  | .gate (.rotation axis qubit (.expression token)) =>
      match values.get? token with
      | some x => .gate (.rotation axis qubit (.number x))
      | none => .gate (.rotation axis qubit (.expression token))
  | op => op

def tokenValue (c : Cache) (values : Table String Float) (theta : Parameter) : Float :=
  (values.get? (c.stage theta).1).getD 0

/-- Nothing read from an operation that is not deferred has a token. -/
theorem bindToken_reread (values : Table String Float) (o : Backend.Options) (op : Operation) :
    (reread o op).map (bindToken values) = reread o op := by
  cases op with
  | gate g => cases g <;> rfl
  | measureRepeatedly m =>
      obtain ⟨readout, count, mapping⟩ := m
      cases mapping with
      | none => rfl
      | some mapping =>
          unfold reread
          rw [List.map_map]
          rfl
  | _ => rfl

/-- Binding what is read is reading what is bound. -/
theorem bindToken_rereadDeferred {c : Cache} {values : Table String Float} {op : Operation}
    (h : ∀ theta, op.deferred? = some theta → ∃ x, values.get? (c.stage theta).1 = some x) :
    (rereadDeferred c op).map (bindToken values) =
      reread .default (op.bindAngle (tokenValue c values)) := by
  cases hdeferred : op.deferred? with
  | none =>
      rw [rereadDeferred_of_not_deferred _ hdeferred,
        Operation.bindAngle_of_not_deferred hdeferred, bindToken_reread]
  | some theta =>
      obtain ⟨x, hx⟩ := h theta hdeferred
      obtain ⟨axis, qubit, rfl, htheta⟩ := Operation.eq_rotation_of_deferred hdeferred
      rw [rereadDeferred_of_symbolic _ _ _ htheta, Operation.bindAngle, if_pos htheta, tokenValue,
        hx, List.map_singleton, bindToken, hx]
      rfl

theorem map_bindToken_readDeferred {c : Cache} {values : Table String Float}
    {ops : List Operation} (h : ∀ op ∈ ops, ∀ theta, op.deferred? = some theta →
      ∃ x, values.get? (c.stage theta).1 = some x) :
    (readDeferred c ops).map (bindToken values) =
      (Declaration.collect ops).map redefine ++
        ops.flatMap (fun op => reread .default (op.bindAngle (tokenValue c values))) := by
  unfold readDeferred
  rw [List.map_append, List.map_map, List.map_flatMap]
  exact congrArg₂ _ rfl
    (List.flatMap_congr (fun op hop => bindToken_rereadDeferred (h op hop)))

theorem isWritable_bindAngle {ds : List Declaration} {op : Operation}
    {number : Parameter → Float}
    (h : IsWritable .default ds (op.bindAngle (fun _ => 0)))
    (hfinite : ∀ theta, op.deferred? = some theta → (number theta).isFinite = true) :
    IsWritable .default ds (op.bindAngle number) := by
  cases hdeferred : op.deferred? with
  | none =>
      rw [Operation.bindAngle_of_not_deferred hdeferred] at h ⊢
      exact h
  | some theta =>
      obtain ⟨axis, qubit, rfl, htheta⟩ := Operation.eq_rotation_of_deferred hdeferred
      rw [Operation.bindAngle, if_pos htheta]
      exact ⟨h.1, number theta, rfl, hfinite theta hdeferred⟩

theorem no_underscore_element (x : Float) :
    '_' ∉ (element defaultRegister x).toList := by
  have hregister : '_' ∉ defaultRegister.toList := by decide
  have hchars : '_' ∉ Number.chars x := by
    intro hmem
    have hnumeral := Number.isNumeral_of_mem_chars x _ hmem
    cases hnumeral
  rw [toList_element]
  simp [hregister, hchars]

theorem no_underscore_apply (kind : GateKind) {parameters operands : List String}
    (hparameters : ∀ p ∈ parameters, '_' ∉ p.toList) (hoperands : ∀ w ∈ operands, '_' ∉ w.toList) :
    '_' ∉ (Line.apply kind.mnemonic parameters operands).text.toList := by
  have hmnemonic : '_' ∉ kind.mnemonic.toList := by
    rcases kind with (_ | _ | _) | (_ | _ | _ | _ | _ | _ | _) | (_ | _ | _ | _) <;> decide
  have hcommas {words : List String} (hwords : ∀ w ∈ words, '_' ∉ w.toList) :
      '_' ∉ List.intercalate [','] (words.map String.toList) := by
    intro hmem
    rcases mem_intercalate hmem with heq | ⟨w, hw, hmem⟩
    · cases heq
    · obtain ⟨word, hword, rfl⟩ := List.mem_map.mp hw
      exact hwords word hword hmem
  rw [toList_text_apply]
  unfold gateText
  split
  · simp [hmnemonic, hcommas hoperands]
  · simp [hmnemonic, hcommas hoperands, hcommas hparameters]

theorem no_underscore_constants (kind : GateKind) : ∀ p ∈ kind.constants, '_' ∉ p.toList := by
  rcases kind with (_ | _ | _) | (_ | _ | _ | _ | _ | _ | _) | (_ | _ | _ | _) <;> decide

theorem tokenFree_name {name : List Char} (hname : isName name = true)
    (h : ¬IsTokenWord name) : TokenFree name :=
  tokenFree_of_not_token (isSolid_name hname).ne_nil (isName_chars hname) h

theorem tokenFree_element {name : String} (hname : isName name.toList = true)
    (h : ¬IsTokenWord name.toList) (x : Float) : TokenFree (element name x).toList := by
  have hindex : '_' ∉ '[' :: (Number.chars x ++ [']']) := by
    intro hmem
    refine no_underscore_element x ?_
    rw [toList_element]
    exact List.mem_append_right _ hmem
  rw [toList_element]
  exact (tokenFree_name hname h).append (.of_no_underscore hindex) (Cut.cons _ rfl _)

theorem tokenFree_measure {source target : String} (hsource : '_' ∉ source.toList)
    (htarget : TokenFree target.toList) :
    TokenFree (Line.measure source target).text.toList := by
  have hstart : TokenFree ("measure".toList ++ ' ' :: source.toList ++ " ->".toList ++ [' ']) := by
    refine .of_no_underscore ?_
    simp [hsource]
  have hline := hstart.append htarget (Cut.concat _ rfl _)
  rw [toList_text_measure]
  simpa using hline

theorem tokenFree_written {ds : List Declaration}
    (hnames : ∀ d ∈ ds, isName d.name.toList = true ∧ ¬IsTokenWord d.name.toList)
    {op : Operation} (hop : IsWritable .default ds op) :
    ∀ l ∈ Backend.written .default op, TokenFree l.text.toList := by
  intro l hl
  obtain ⟨kind, parameters, qubits, hparameters, -, rfl⟩ | ⟨q, readout, index, hbit, rfl⟩ |
    ⟨d, hd, rfl⟩ := hop.mem_written hl
  · refine .of_no_underscore (no_underscore_apply kind ?_ ?_)
    · rcases hparameters with rfl | ⟨x, -, rfl⟩
      · exact no_underscore_constants kind
      · exact List.forall_mem_singleton.mpr (no_underscore_literal x)
    · exact List.forall_mem_map.mpr (fun q _ => no_underscore_element q)
  · obtain ⟨d, hd, rfl, -⟩ := hbit
    exact tokenFree_measure (no_underscore_element q)
      (tokenFree_element (hnames d hd).1 (hnames d hd).2 index)
  · exact tokenFree_measure (by decide) (tokenFree_name (hnames d hd).1 (hnames d hd).2)

theorem tokenFree_terminated {text : List Char} (h : TokenFree text) :
    TokenFree (text ++ [';']) :=
  h.append (.of_no_underscore (by decide)) (Cut.cons _ rfl _)

theorem replaced_program {values : Table String Float} {ls ls' : List (List Char)}
    (h : List.Forall₂ (fun l l' => replaced values (l ++ [';']) = .ok (l' ++ [';'])) ls ls') :
    replaced values (program ls) = .ok (program ls') := by
  unfold program
  induction h with
  | nil => rfl
  | cons hl hls ih =>
      rename_i l l' ls ls'
      have hsplit (l : List Char) (ls : List (List Char)) :
          (l :: ls).flatMap (· ++ [';', '\n']) =
            (l ++ [';']) ++ '\n' :: ls.flatMap (· ++ [';', '\n']) := by simp
      rw [hsplit, hsplit, replaced_append values (Cut.concat l rfl _), hl,
        replaced_other values rfl, ih]
      rfl

def boundLines (c : Cache) (values : Table String Float) (op : Operation) : List Line :=
  Backend.written .default (op.bindAngle (tokenValue c values))

theorem stands_deferredLines {c : Cache} {values : Table String Float} {op : Operation}
    (h : ∀ theta, op.deferred? = some theta → IsTokenWord (c.stage theta).1.toList ∧
      ∃ x, values.get? (c.stage theta).1 = some x) :
    List.Forall₂ (Stands (fun token x => values.get? token = some x)) (deferredLines c op)
      (boundLines c values op) := by
  unfold boundLines
  cases hdeferred : op.deferred? with
  | none =>
      rw [Backend.deferredLines_of_not_deferred _ hdeferred,
        Operation.bindAngle_of_not_deferred hdeferred]
      exact List.forall₂_same.mpr (fun l _ => .same l)
  | some theta =>
      obtain ⟨hword, x, hx⟩ := h theta hdeferred
      obtain ⟨axis, qubit, rfl, htheta⟩ := Operation.eq_rotation_of_deferred hdeferred
      have hvalue : tokenValue c values theta = x := by rw [tokenValue, hx, Option.getD_some]
      rw [Backend.deferredLines_of_symbolic _ _ _ htheta, Operation.bindAngle, if_pos htheta,
        hvalue]
      exact .cons (.token _ _ hword hx) .nil

theorem replaced_terminated {values : Table String Float} {l l' : Line}
    (hl : Stands (fun token x => values.get? token = some x) l l')
    (hfree : TokenFree l'.text.toList) :
    replaced values (l.text.toList ++ [';']) = .ok (l'.text.toList ++ [';']) := by
  have hterminated (l : Line) : l.terminated.toList = l.text.toList ++ [';'] := by
    simp [Line.terminated]
  have hnil : replaced values [] = .ok [] := rfl
  have hline := replaced_line hl (by simpa [hterminated] using tokenFree_terminated hfree)
    (by simp) (by simp) hnil
  simpa [hterminated] using hline

theorem tokenFree_declaration {d : Declaration} (hname : isName d.name.toList = true)
    (h : ¬IsTokenWord d.name.toList) : TokenFree d.line.text.toList := by
  have hkeyword : TokenFree ("creg".toList ++ [' ']) := .of_no_underscore (by decide)
  unfold Declaration.line
  rw [toList_text_declare]
  exact hkeyword.append (tokenFree_element hname h _) (Cut.concat _ rfl _)

/-- The program with placeholders, once bound, is the program of the bound operations. -/
theorem substitute_compose {c : Cache} {values : Table String Float} {ds : List Declaration}
    {ops : List Operation}
    (hnames : ∀ d ∈ ds, isName d.name.toList = true ∧ ¬IsTokenWord d.name.toList)
    (hops : ∀ op ∈ ops, IsWritable .default ds (op.bindAngle (tokenValue c values)))
    (htokens : ∀ op ∈ ops, ∀ theta, op.deferred? = some theta →
      IsTokenWord (c.stage theta).1.toList ∧ ∃ x, values.get? (c.stage theta).1 = some x)
    (size : Float) :
    substitute (Program.compose defaultRegister size
        ((ds.map Declaration.line).map Line.terminated)
        ((ops.flatMap (deferredLines c)).map Line.terminated)) values =
      .ok (Program.compose defaultRegister size
        ((ds.map Declaration.line).map Line.terminated)
        ((ops.flatMap (boundLines c values)).map Line.terminated)) := by
  have hsame {text : List Char} (hfree : TokenFree text) :
      replaced values (text ++ [';']) = .ok (text ++ [';']) :=
    replaced_of_tokenFree values (tokenFree_terminated hfree)
  have hqubits : TokenFree (Scope.qubitLine defaultRegister size) := by
    refine .of_no_underscore ?_
    unfold Scope.qubitLine
    simp [no_underscore_element]
  have hdeclarations : ∀ l ∈ ds.map Declaration.line, TokenFree l.text.toList := by
    intro l hl
    obtain ⟨d, hd, rfl⟩ := List.mem_map.mp hl
    exact tokenFree_declaration (hnames d hd).1 (hnames d hd).2
  have hoperations : ∀ op ∈ ops, List.Forall₂
      (fun l l' : Line => replaced values (l.text.toList ++ [';']) = .ok (l'.text.toList ++ [';']))
      (deferredLines c op) (boundLines c values op) := by
    intro op hop
    obtain ⟨hlength, hstands⟩ := List.forall₂_iff_zip.mp (stands_deferredLines (htokens op hop))
    refine List.forall₂_iff_zip.mpr ⟨hlength, fun hmem => ?_⟩
    exact replaced_terminated (hstands hmem)
      (tokenFree_written hnames (hops op hop) _ (List.of_mem_zip hmem).2)
  -- The two programs differ in the lines of the operations only.
  have htext (lines : List Line) :=
    toList_compose defaultRegister size ⟨ds.map Declaration.line, lines, none⟩
  have hprogram : replaced values (program (programLines defaultRegister size
        ⟨ds.map Declaration.line, ops.flatMap (deferredLines c), none⟩)) =
      .ok (program (programLines defaultRegister size
        ⟨ds.map Declaration.line, ops.flatMap (boundLines c values), none⟩)) := by
    refine replaced_program (.cons (hsame (.of_no_underscore (by decide)))
      (.cons (hsame (.of_no_underscore (by decide))) (.cons (hsame hqubits) ?_)))
    rw [List.forall₂_map_left_iff, List.forall₂_map_right_iff]
    refine List.rel_append (List.forall₂_same.mpr (fun l hl => hsame (hdeclarations l hl))) ?_
    exact List.rel_flatMap (R := fun op op' => op = op' ∧ op ∈ ops)
      (List.forall₂_same.mpr (fun op hop => ⟨rfl, hop⟩))
      (fun op op' h => h.1 ▸ hoperations op h.2)
  rw [substitute_eq, htext, hprogram, ← htext]
  change Except.ok (String.ofList _) = _
  rw [String.ofList_toList]

theorem reads_deferredLines {c : Cache} {size : ℕ} {ds : List Declaration}
    (h : Declared defaultRegister size ds) {op : Operation}
    (hop : IsWritable .default ds (op.bindAngle (fun _ => 0)))
    (hlt : ∀ q ∈ op.qubits, value q < size)
    (htoken : ∀ theta, op.deferred? = some theta → IsTokenWord (c.stage theta).1.toList) :
    (∀ l ∈ deferredLines c op, PlainLine l.text.toList) ∧
      ∀ before, (Scope.ofParts defaultRegister (Float.ofNat size) ds before).Reads
        ((deferredLines c op).map (fun l => l.text.toList))
        (Scope.ofParts defaultRegister (Float.ofNat size) ds
          (before ++ rereadDeferred c op)) := by
  cases hdeferred : op.deferred? with
  | none =>
      rw [Operation.bindAngle_of_not_deferred hdeferred] at hop
      rw [Backend.deferredLines_of_not_deferred _ hdeferred,
        rereadDeferred_of_not_deferred _ hdeferred]
      exact ⟨plainLine_written h hop, Scope.reads_written h hop hlt⟩
  | some theta =>
      have hword := htoken theta hdeferred
      have hname := isName_token hword
      obtain ⟨axis, qubit, rfl, htheta⟩ := Operation.eq_rotation_of_deferred hdeferred
      rw [Backend.deferredLines_of_symbolic _ _ _ htheta, rereadDeferred_of_symbolic _ _ _ htheta]
      constructor
      · intro l hl
        rw [List.mem_singleton.mp hl]
        exact plainLine_gate h.isName (.rotation axis) (by simpa using isSolid_name hname)
          (by simp [no_slash_name hname]) [qubit] (List.cons_ne_nil _ _)
      · intro before
        exact Scope.reads_rotation h before axis hop.1 (hlt qubit (.head _)) (isSolid_name hname)
          (no_slash_name hname) (Scope.parameter_token hword)

namespace Deferrable

variable {ops : List Operation}

theorem declared (h : Deferrable ops) {size : ℕ} (hpos : 0 < size) (hsize : size < 2 ^ 53) :
    Declared defaultRegister size (Declaration.collect ops) :=
  ⟨by decide, hpos, hsize, fun d hd => ⟨(h.names d hd).1, (h.names d hd).2.1⟩, h.lengths,
    h.distinct⟩

theorem mem_keys_of_deferred {op : Operation} (hop : op ∈ ops) {theta : Parameter}
    (h : op.deferred? = some theta) :
    IsTokenWord ((placeholders ops).stage theta).1.toList ∧
      ((placeholders ops).stage theta).1 ∈ (placeholders ops).values.keys := by
  obtain ⟨token, -, -, hstage, hword, hkey, -⟩ :=
    Backend.stage_placeholders (List.mem_filterMap.mpr ⟨op, hop, h⟩)
  rw [hstage]
  exact ⟨hword, hkey⟩

/-- The program with placeholders, read as it stands. -/
theorem read_output (h : Deferrable ops) :
    read (Backend.deferredOutput ops).text =
      .ok ⟨⟨none, readDeferred (placeholders ops) ops⟩, (Backend.deferredOutput ops).size⟩ := by
  obtain ⟨size, hpos, hsize, heq, hlt⟩ := h.exists_size
  have hdeclared := declared h hpos hsize
  have hreads (op : Operation) (hop : op ∈ ops) :=
    reads_deferredLines hdeclared (h.operations op hop)
      (fun q hq => hlt q (List.mem_flatMap.mpr ⟨op, hop, hq⟩))
      (fun theta hdeferred => (mem_keys_of_deferred hop hdeferred).1)
  unfold Backend.deferredOutput
  dsimp only
  rw [heq]
  exact read_program hdeclared (fun op hop => (hreads op hop).1) (fun op hop => (hreads op hop).2)

theorem read_bound (h : Deferrable ops) {values : Table String Float}
    (hvalues : ∀ token ∈ (placeholders ops).values.keys,
      ∃ x, values.get? token = some x ∧ x.isFinite = true) :
    ∃ bound, substitute (Backend.deferredOutput ops).text values = .ok bound ∧
      read bound = .ok ⟨⟨none, (readDeferred (placeholders ops) ops).map (bindToken values)⟩,
        (Backend.deferredOutput ops).size⟩ := by
  obtain ⟨size, hpos, hsize, heq, hlt⟩ := h.exists_size
  have hdeclared := declared h hpos hsize
  have htokens : ∀ op ∈ ops, ∀ theta, op.deferred? = some theta →
      IsTokenWord ((placeholders ops).stage theta).1.toList ∧
        ∃ x, values.get? ((placeholders ops).stage theta).1 = some x ∧ x.isFinite = true := by
    intro op hop theta hdeferred
    obtain ⟨hword, hkey⟩ := mem_keys_of_deferred hop hdeferred
    exact ⟨hword, hvalues _ hkey⟩
  have hops : ∀ op ∈ ops, IsWritable .default (Declaration.collect ops)
      (op.bindAngle (tokenValue (placeholders ops) values)) := by
    intro op hop
    refine isWritable_bindAngle (h.operations op hop) (fun theta hdeferred => ?_)
    obtain ⟨-, x, hx, hfinite⟩ := htokens op hop theta hdeferred
    rw [tokenValue, hx]
    exact hfinite
  have hvalue : ∀ op ∈ ops, ∀ theta, op.deferred? = some theta →
      ∃ x, values.get? ((placeholders ops).stage theta).1 = some x := by
    intro op hop theta hdeferred
    obtain ⟨-, x, hx, -⟩ := htokens op hop theta hdeferred
    exact ⟨x, hx⟩
  have hsubstitute := substitute_compose
    (fun d hd => ⟨(h.names d hd).1, (h.names d hd).2.2⟩) hops
    (fun op hop theta hdeferred =>
      ⟨(htokens op hop theta hdeferred).1, hvalue op hop theta hdeferred⟩) (Float.ofNat size)
  unfold Backend.deferredOutput
  dsimp only
  rw [heq, map_bindToken_readDeferred hvalue]
  -- The bound program is written like one without placeholders, and read like it.
  refine ⟨_, hsubstitute, read_program hdeclared ?_ ?_⟩
  · exact fun op hop => plainLine_written hdeclared (hops op hop)
  · intro op hop before
    refine Scope.reads_written hdeclared (hops op hop) (fun q hq => ?_) before
    rw [Operation.qubits_bindAngle] at hq
    exact hlt q (List.mem_flatMap.mpr ⟨op, hop, hq⟩)

end Deferrable

/-- Late binding commutes with reading. A default backend writes the program of the circuit in
symbolic mode. As it stands, the program is read with the tokens as angles, and each of them stands
for an angle of the same text up to blanks. With finite values for the tokens, it is read with
these values in their place. -/
theorem read_lateBinding {ops : List Operation} (h : Deferrable ops) :
    ∃ output cache,
      (Backend.new .default).run ops true = (.ok output, ⟨.default, some cache⟩) ∧
      read output.text = .ok ⟨⟨none, readDeferred cache ops⟩, output.size⟩ ∧
      (∀ axis qubit theta, .gate (.rotation axis qubit theta) ∈ ops → theta.isSymbolic = true →
        ∃ token text text', cache.stage theta = (token, cache) ∧ theta = .expression text ∧
          cache.resolve token = .ok (.expression text') ∧
          removeBlanks text'.toList = removeBlanks text.toList) ∧
      ∀ values : Table String Float,
        (∀ token ∈ cache.values.keys, ∃ x, values.get? token = some x ∧ x.isFinite = true) →
        ∃ bound, substitute output.text values = .ok bound ∧
          read bound = .ok ⟨⟨none, (readDeferred cache ops).map (bindToken values)⟩,
            output.size⟩ := by
  refine ⟨_, _, h.run_eq, Deferrable.read_output h, ?_, fun values => Deferrable.read_bound h⟩
  intro axis qubit theta hop htheta
  have hdeferred : (Operation.gate (.rotation axis qubit theta)).deferred? = some theta :=
    if_pos htheta
  obtain ⟨token, text, text', hstage, -, -, heq, hresolve, hblanks⟩ :=
    Backend.stage_placeholders (List.mem_filterMap.mpr ⟨_, hop, hdeferred⟩)
  exact ⟨token, text, text', hstage, heq, hresolve, hblanks⟩

/-- The sample circuit after an angle in another spelling, a number, a text that is no formula, and
a measurement of all qubits. -/
def deferredSample : List Operation :=
  [.gate (.rotation .y 1 (.expression "- x / 4")), .gate (.rotation .x 2 (.number 0.5)),
    .gate (.rotation .x 2 (.expression "2 * (y")), .measureRepeatedly ⟨"ro", 1, none⟩] ++ sample

theorem deferrable_sample : Deferrable deferredSample where
  names := by
    intro d hd
    rw [List.mem_singleton.mp hd, ← isToken_iff]
    decide +kernel
  lengths := writable_sample.lengths
  distinct := writable_sample.distinct
  operations := by
    have hzero : ∃ x, (Backend.substitutionCalculator .default).evaluate (.number 0) = .ok x ∧
        x.isFinite = true := ⟨0, rfl, by decide +kernel⟩
    intro op hop
    rcases List.mem_append.mp hop with hop | hop
    · simp only [List.mem_cons, List.not_mem_nil, or_false] at hop
      rcases hop with rfl | rfl | rfl | rfl
      · exact ⟨⟨by decide +kernel, by decide +kernel⟩, hzero⟩
      · exact ⟨⟨by decide +kernel, by decide +kernel⟩, 0.5, rfl, by decide +kernel⟩
      · exact ⟨⟨by decide +kernel, by decide +kernel⟩, hzero⟩
      · exact ⟨⟨_, .head _, rfl⟩, fun mapping heq => by cases heq⟩
    · have hop' := writable_sample.operations op hop
      simp only [sample, List.mem_cons, List.not_mem_nil, or_false] at hop
      rcases hop with rfl | rfl | rfl | rfl | rfl
      · exact ⟨hop'.1, hzero⟩
      all_goals exact hop'
  unmixed := by
    rintro ⟨-, m, hm⟩
    simp [deferredSample, sample] at hm

theorem read_lateBinding_sample :
    Deferrable deferredSample ∧
      ∃ output cache,
        (Backend.new .default).run deferredSample true = (.ok output, ⟨.default, some cache⟩) ∧
        read output.text = .ok ⟨⟨none, readDeferred cache deferredSample⟩, output.size⟩ ∧
        (∀ axis qubit theta, .gate (.rotation axis qubit theta) ∈ deferredSample →
          theta.isSymbolic = true →
          ∃ token text text', cache.stage theta = (token, cache) ∧ theta = .expression text ∧
            cache.resolve token = .ok (.expression text') ∧
            removeBlanks text'.toList = removeBlanks text.toList) ∧
        ∀ values : Table String Float,
          (∀ token ∈ cache.values.keys, ∃ x, values.get? token = some x ∧ x.isFinite = true) →
          ∃ bound, substitute output.text values = .ok bound ∧
            read bound = .ok ⟨⟨none, (readDeferred cache deferredSample).map (bindToken values)⟩,
              output.size⟩ :=
  ⟨deferrable_sample, read_lateBinding deferrable_sample⟩

end OpenQasm.Source

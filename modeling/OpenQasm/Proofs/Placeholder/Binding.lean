import OpenQasm.Proofs.Backend.Pipeline
import OpenQasm.Proofs.Expr.Blanks
import OpenQasm.Proofs.Placeholder.Cache

/-!
# Deferred binding agrees with direct writing

With a cache, a rotation by a symbolic angle is written with the token of the angle between its
brackets, and every other line is the same as without a cache. The token stands for the first angle
with the same text up to blanks, which has the same value. So once the cache is bound, substitution
turns the deferred lines into the direct ones, provided that these contain no tokens themselves.
-/
namespace OpenQasm.Placeholder

open OpenQasm.Text

/-- A deferred line beside a direct one: the same, or with a token in place of its number. -/
inductive Stands (numbers : String → Float → Prop) : Line → Line → Prop
  | same (l : Line) : Stands numbers l l
  | token (mnemonic : String) (operands : List String) {token : String} {x : Float}
      (hword : IsTokenWord token.toList) (hx : numbers token x) :
      Stands numbers (.apply mnemonic [token] operands)
        (.apply mnemonic [Number.literal x] operands)

theorem Stands.mono {numbers numbers' : String → Float → Prop}
    (h : ∀ token x, numbers token x → numbers' token x) {l l' : Line} (hl : Stands numbers l l') :
    Stands numbers' l l' := by
  cases hl with
  | same l => exact .same l
  | token mnemonic operands hword hx => exact .token mnemonic operands hword (h _ _ hx)

theorem toList_terminated_apply (mnemonic : String) (operands : List String) :
    ∃ ending, (∀ c ∈ (')' :: ending).getLast?, isNameChar c = false) ∧
      ∀ parameter, (Line.apply mnemonic [parameter] operands).terminated.toList =
        (mnemonic.toList ++ ['(']) ++ (parameter.toList ++ ')' :: ending) := by
  refine ⟨' ' :: ((join "," operands).toList ++ [';']), ?_, ?_⟩
  · intro c hc
    rw [← List.cons_append, ← List.cons_append, List.getLast?_concat] at hc
    cases hc
    rfl
  · intro parameter
    unfold Line.terminated Line.text
    simp [join]

theorem replaced_line {values : Table String Float} {l l' : Line} {rest rest' : List Char}
    (hl : Stands (fun token x => values.get? token = some x) l l')
    (hfree : TokenFree (l'.terminated.toList ++ rest'))
    (hrest : ∀ c ∈ rest.head?, isNameChar c = false)
    (hrest' : ∀ c ∈ rest'.head?, isNameChar c = false)
    (hreplaced : replaced values rest = .ok rest') :
    replaced values (l.terminated.toList ++ rest) = .ok (l'.terminated.toList ++ rest') := by
  cases hl with
  | same l =>
      have hpiece : TokenFree l.terminated.toList := by
        rw [← List.nil_append l.terminated.toList] at hfree
        exact hfree.piece (Cut.of_last (by simp) _) (Cut.of_head _ hrest')
      rw [replaced_piece values hpiece (Cut.of_head _ hrest), hreplaced]
      rfl
  | token mnemonic operands hword hx =>
      rename_i token x
      obtain ⟨ending, hlast, htext⟩ := toList_terminated_apply mnemonic operands
      rw [htext] at hfree
      rw [htext, htext]
      have hopen (tail : List Char) : Cut (mnemonic.toList ++ ['(']) tail := Cut.concat _ rfl tail
      have hclose (tail : List Char) :
          ∀ c ∈ (')' :: ending ++ tail).head?, isNameChar c = false := by
        intro c hc
        cases hc
        rfl
      have hstart : TokenFree (mnemonic.toList ++ ['(']) := by
        rw [List.append_assoc, ← List.nil_append (mnemonic.toList ++ ['('])] at hfree
        exact hfree.piece (Cut.of_last (by simp) _) (hopen _)
      have hend : TokenFree (')' :: ending) := by
        rw [← List.append_assoc] at hfree
        exact hfree.piece (Cut.cons _ rfl _) (Cut.of_last hlast _)
      have hvalue : values.get? (String.ofList token.toList) = some x := by
        rwa [String.ofList_toList]
      calc replaced values
            ((mnemonic.toList ++ ['(']) ++ (token.toList ++ ')' :: ending) ++ rest)
          = replaced values
              ((mnemonic.toList ++ ['(']) ++ (token.toList ++ (')' :: ending ++ rest))) := by simp
        _ = (mnemonic.toList ++ ['('] ++ ·) <$>
              (((Number.literal x).toList ++ ·) <$> ((')' :: ending ++ ·) <$>
                replaced values rest)) := by
            rw [replaced_piece values hstart (hopen _),
              replaced_token hword hvalue (hclose rest),
              replaced_piece values hend (Cut.of_last hlast rest)]
        _ = _ := by
            rw [hreplaced]
            simp

theorem toList_join_cons (l : Line) (l' : Line) (ls : List Line) :
    (join "\n" ((l :: l' :: ls).map Line.terminated)).toList =
      l.terminated.toList ++ '\n' :: (join "\n" ((l' :: ls).map Line.terminated)).toList := by
  rw [List.map_cons, List.map_cons, join, String.toList_append, String.toList_append,
    List.append_assoc]
  · rfl
  · simp

/-- Substitution in lines that stand beside direct ones gives the direct ones. -/
theorem replaced_lines {values : Table String Float} {ls ls' : List Line}
    (hls : List.Forall₂ (Stands (fun token x => values.get? token = some x)) ls ls')
    (hfree : TokenFree (join "\n" (ls'.map Line.terminated)).toList) :
    replaced values (join "\n" (ls.map Line.terminated)).toList =
      .ok (join "\n" (ls'.map Line.terminated)).toList := by
  induction hls with
  | nil => rfl
  | cons hl hls ih =>
      rename_i l l' ls ls'
      cases hls with
      | nil =>
          have hnil : replaced values [] = .ok [] := rfl
          have h := replaced_line hl (by simpa [join] using hfree) (by simp) (by simp) hnil
          simpa [join] using h
      | cons hm hms =>
          have hnewline (tail : List Char) : ∀ c ∈ ('\n' :: tail).head?, isNameChar c = false := by
            intro c hc
            cases hc
            rfl
          rw [toList_join_cons] at hfree ⊢
          rw [toList_join_cons]
          refine replaced_line hl hfree (hnewline _) (hnewline _) ?_
          rw [replaced_other values rfl, ih ?_]
          · rfl
          · rw [← List.singleton_append, ← List.append_assoc] at hfree
            exact hfree.tail (Cut.concat _ rfl _)

/-- A cache whose entries all are expressions with a value. -/
structure Cache.Ready (calculator : Calculator) (c : Cache) : Prop extends c.Coherent where
  evaluable : ∀ e ∈ c.entries, ∃ text x, e.2 = .expression text ∧ calculator.evaluate e.2 = .ok x

/-- A token stands for a value of some entry. -/
def Cache.Binds (calculator : Calculator) (c : Cache) (token : String) (x : Float) : Prop :=
  ∃ value, (token, value) ∈ c.entries ∧ calculator.evaluate value = .ok x

/-- How lines are written without placeholders of their own. -/
def directOptions (calculator : Calculator) (naming : Naming) : Line.Options :=
  ⟨naming, some calculator.evaluate, fun _ => false⟩

theorem ofGate_rotation (o : Line.Options) (axis : Axis) (qubit : Float) (theta : Parameter) :
    Line.ofGate o (.rotation axis qubit theta) = (do
      let parameter ← o.parameter theta
      let operand ← o.qubit qubit
      return .apply (GateKind.rotation axis).mnemonic [parameter] [operand]) := by
  unfold Line.ofGate Line.ofSlots
  cases axis <;>
    simp [Gate.kind, Gate.slots, GateKind.rule, Slots.parameter?, Slots.qubit?, GateKind.constants]

theorem removeBlanks_eq_of_canonical {text text' : String}
    (h : canonical (.expression text) = canonical (.expression text')) :
    removeBlanks text.toList = removeBlanks text'.toList := by
  have htext := congrArg String.toList h
  unfold canonical at htext
  rwa [String.toList_ofList, String.toList_ofList] at htext

/-- Staging an expression with a value: its token stands for that value, even if an earlier
spelling has taken it. -/
theorem Cache.Ready.stage {calculator : Calculator} {c : Cache} (h : c.Ready calculator)
    {text : String} {x : Float} (hx : calculator.evaluate (.expression text) = .ok x) :
    (c.stage (.expression text)).2.Ready calculator ∧
      (c.stage (.expression text)).2.Binds calculator (c.stage (.expression text)).1 x ∧
      ∀ e ∈ c.entries, e ∈ (c.stage (.expression text)).2.entries := by
  obtain ⟨hcoherent, hold, hsource, value, hmem, hcanonical⟩ :=
    h.toCoherent.staged (.expression text)
  have hevaluable : ∀ e ∈ (c.stage (.expression text)).2.entries,
      ∃ text' y, e.2 = .expression text' ∧ calculator.evaluate e.2 = .ok y := by
    intro e he
    rcases hsource e he with he | he
    · exact h.evaluable e he
    · exact ⟨text, x, he, he ▸ hx⟩
  refine ⟨⟨hcoherent, hevaluable⟩, ⟨value, hmem, ?_⟩, hold⟩
  obtain ⟨text', y, hvalue, hy⟩ := hevaluable _ hmem
  change value = .expression text' at hvalue
  subst hvalue
  rw [hy, calculator.evaluate_eq_of_removeBlanks hy hx (removeBlanks_eq_of_canonical hcanonical)]

theorem parameter_direct {calculator : Calculator} {naming : Naming} {theta : Parameter}
    {parameter : String} (h : (directOptions calculator naming).parameter theta = .ok parameter) :
    ∃ x, calculator.evaluate theta = .ok x ∧ parameter = Number.literal x := by
  have hresolve : Number.literal <$> (directOptions calculator naming).resolve theta =
      .ok parameter := by
    cases theta <;> exact h
  obtain ⟨x, hx, rfl⟩ := exists_of_map_ok hresolve
  exact ⟨x, ok_of_mapError_ok hx, rfl⟩

/-- With a cache, a rotation by a symbolic angle is written with the token of its angle, which the
cache knows, so only its qubit can be without a name. -/
theorem step_of_symbolic (o : Line.Options) {c : Cache} (hc : c.Coherent) (axis : Axis)
    (qubit : Float) {theta : Parameter} (h : theta.isSymbolic = true) :
    Body.step o (some c) (.gate (.rotation axis qubit theta)) =
      (fun operand => ⟨[], [.apply (GateKind.rotation axis).mnemonic [(c.stage theta).1] [operand]],
        some (c.stage theta).2⟩) <$> o.qubit qubit := by
  obtain ⟨value, hmem, -⟩ := (hc.staged theta).found
  have hhas : (c.stage theta).2.has (c.stage theta).1 = true :=
    Table.contains_iff.mpr (List.mem_map_of_mem (f := Prod.fst) hmem)
  have hparameter : Line.Options.parameter { o with placeholders := (c.stage theta).2.has }
      (.expression (c.stage theta).1) = .ok (c.stage theta).1 := if_pos hhas
  unfold Body.step
  dsimp only
  rw [if_pos h, ofGate_rotation, hparameter]
  change ((o.qubit qubit >>= _) >>= _) = _
  cases o.qubit qubit <;> rfl

theorem step_symbolic {calculator : Calculator} {naming : Naming} {axis : Axis} {qubit : Float}
    {theta : Parameter} {lines : List Line} {c : Cache} (hc : c.Ready calculator)
    (htheta : theta.isSymbolic = true)
    (h : Line.ofOperation (directOptions calculator naming) (.gate (.rotation axis qubit theta)) =
      .ok lines) :
    ∃ lines' c', Body.step (directOptions calculator naming) (some c)
        (.gate (.rotation axis qubit theta)) = .ok ⟨[], lines', some c'⟩ ∧
      c'.Ready calculator ∧ (∀ e ∈ c.entries, e ∈ c'.entries) ∧
      List.Forall₂ (Stands (c'.Binds calculator)) lines' lines := by
  obtain ⟨line, hline, rfl⟩ := exists_of_map_ok h
  rw [ofGate_rotation] at hline
  obtain ⟨parameter, hparameter, hline⟩ := exists_of_bind_ok hline
  obtain ⟨operand, hoperand, hline⟩ := exists_of_bind_ok hline
  cases hline
  obtain ⟨x, hx, rfl⟩ := parameter_direct hparameter
  cases theta with
  | number y => cases htheta
  | expression text =>
      obtain ⟨hready, hbinds, hold⟩ := hc.stage hx
      obtain ⟨value, hmem, -⟩ := id hbinds
      have hkey : (c.stage (.expression text)).1 ∈ (c.stage (.expression text)).2.values.keys :=
        List.mem_map_of_mem (f := Prod.fst) hmem
      have hword := hready.isTokenWord _ hkey
      refine ⟨_, _, ?_, hready, hold, .cons (.token _ [operand] hword hbinds) .nil⟩
      rw [step_of_symbolic _ hc.toCoherent axis qubit htheta, hoperand]
      rfl

theorem step_deferred {calculator : Calculator} {naming : Naming} {op : Operation} {body : Body}
    {c : Cache} (hc : c.Ready calculator)
    (h : Body.step (directOptions calculator naming) none op = .ok body) :
    body.cache = none ∧
      ∃ body' c', Body.step (directOptions calculator naming) (some c) op = .ok body' ∧
        body'.cache = some c' ∧ c'.Ready calculator ∧ (∀ e ∈ c.entries, e ∈ c'.entries) ∧
        List.Forall₂ (Stands (c'.Binds calculator)) body'.lines body.lines := by
  have hrefl (ls : List Line) : List.Forall₂ (Stands (c.Binds calculator)) ls ls :=
    List.forall₂_same.mpr (fun l _ => .same l)
  by_cases hdef : op.isDefinition = true
  · cases op with
    | define d =>
        cases h
        exact ⟨rfl, _, c, rfl, rfl, hc, fun e he => he, .nil⟩
    | _ => cases hdef
  rw [Bool.not_eq_true] at hdef
  rw [Body.step_none hdef] at h
  obtain ⟨lines, hlines, rfl⟩ := exists_of_map_ok h
  refine ⟨rfl, ?_⟩
  -- All but symbolic rotations are written as they are without a cache.
  cases hdeferred : op.deferred? with
  | none =>
      refine ⟨⟨[], lines, some c⟩, c, ?_, rfl, hc, fun e he => he, hrefl lines⟩
      rw [Body.step_of_not_deferred hdef hdeferred, hlines]
      rfl
  | some theta =>
      obtain ⟨axis, qubit, rfl, htheta⟩ := Operation.eq_rotation_of_deferred hdeferred
      obtain ⟨lines', c', hstep, hready, hold, hstands⟩ := step_symbolic hc htheta hlines
      exact ⟨_, c', hstep, rfl, hready, hold, hstands⟩

/-- All operations, deferred beside direct. -/
theorem ofOperations_deferred {calculator : Calculator} {naming : Naming} {ops : List Operation}
    {body : Body} {c : Cache} (hc : c.Ready calculator)
    (h : Body.ofOperations (directOptions calculator naming) none ops = .ok body) :
    ∃ body' c', Body.ofOperations (directOptions calculator naming) (some c) ops = .ok body' ∧
      body'.cache = some c' ∧ c'.Ready calculator ∧ (∀ e ∈ c.entries, e ∈ c'.entries) ∧
      List.Forall₂ (Stands (c'.Binds calculator)) body'.lines body.lines := by
  induction ops generalizing body c with
  | nil =>
      cases h
      exact ⟨_, c, rfl, rfl, hc, fun e he => he, .nil⟩
  | cons op ops ih =>
      obtain ⟨head, hhead, h⟩ := exists_of_bind_ok h
      obtain ⟨tail, htail, h⟩ := exists_of_bind_ok h
      cases h
      obtain ⟨hnone, head', c', hhead', hcache, hready, hold, hstands⟩ := step_deferred hc hhead
      rw [hnone] at htail
      obtain ⟨tail', c'', htail', hcache', hready', hold', hstands'⟩ := ih hready htail
      refine ⟨⟨head'.declarations ++ tail'.declarations, head'.lines ++ tail'.lines, tail'.cache⟩,
        c'', ?_, hcache', hready', fun e he => hold' e (hold e he), ?_⟩
      · refine Body.ofOperations_cons_ok hhead' ?_
        rw [hcache]
        exact htail'
      · -- Entries stay, so a token keeps its number to the end.
        refine List.rel_append (hstands.imp ?_) hstands'
        intro l l' hl
        refine hl.mono ?_
        rintro token x ⟨value, hmem, hvalue⟩
        exact ⟨value, hold' _ hmem, hvalue⟩

theorem Cache.ready_empty (calculator : Calculator) : Cache.empty.Ready calculator where
  toCoherent := Cache.coherent_empty
  evaluable := by
    intro e he
    cases he

end OpenQasm.Placeholder

namespace OpenQasm.Body

open OpenQasm.Placeholder

def joined (b : Body) : String :=
  Text.join "\n" (b.lines.map Line.terminated)

/-- Operations that can be written directly can be written with placeholders too, with the same
declarations and as many lines. The placeholders can then be bound, and substituting their values
gives the direct lines, if these contain no whole word of the form of a token. -/
theorem substitute_deferred (calculator : Calculator) (naming : Naming) (ops : List Operation)
    {body : Body}
    (h : ofOperations ⟨naming, some calculator.evaluate, fun _ => false⟩ none ops = .ok body)
    (hfree : ∀ word, IsTokenWord word → ¬Text.WholeWord word body.joined.toList) :
    ∃ deferred cache bound,
      ofOperations ⟨naming, some calculator.evaluate, fun _ => false⟩ (some .empty) ops =
        .ok deferred ∧
      deferred.declarations = body.declarations ∧
      deferred.lines.length = body.lines.length ∧
      deferred.cache = some cache ∧
      cache.bind calculator.evaluate = .ok bound ∧
      substitute deferred.joined (Table.ofList bound) = .ok body.joined := by
  obtain ⟨deferred, cache, hdeferred, hcache, hready, -, hstands⟩ :=
    ofOperations_deferred (Cache.ready_empty calculator) h
  obtain ⟨bound, hbound, hvalues⟩ := hready.toCoherent.bind_eq_ok
    (fun e he => (hready.evaluable e he).elim fun _ ⟨x, _, hx⟩ => ⟨x, hx⟩)
  refine ⟨deferred, cache, bound, hdeferred, ?_, hstands.length_eq, hcache, hbound, ?_⟩
  · rw [declarations_eq hdeferred, declarations_eq h]
  · have hlines : List.Forall₂
        (Stands (fun token x => (Table.ofList bound).get? token = some x))
        deferred.lines body.lines := by
      refine hstands.imp ?_
      intro l l' hl
      refine hl.mono ?_
      rintro token x ⟨value, hmem, hvalue⟩
      exact hvalues token value x hmem hvalue
    rw [substitute_eq]
    unfold joined
    rw [replaced_lines hlines hfree]
    change Except.ok (String.ofList (String.toList _)) = _
    rw [String.ofList_toList]

/-- Rotations by one angle in two spellings, beside other lines. -/
def twoSpellings : List Operation :=
  [.define ⟨.bit, "ro", 1, true⟩, .gate (.rotation .x 0 (.expression "x + 1")),
    .gate (.rotation .z 1 (.expression "x+ 1")), .gate (.rotation .y 0 (.number 2)),
    .measure ⟨0, "ro", 0⟩]

def twoSpellingsBody : Body :=
  ⟨[.declare "ro" 1],
    [.apply "rx" ["1.5"] ["q[0]"], .apply "rz" ["1.5"] ["q[1]"], .apply "ry" ["2.0"] ["q[0]"],
      .measure "q[0]" "ro[0]"], none⟩

theorem ofOperations_twoSpellings :
    ofOperations ⟨.default, some (Calculator.ofList [("x", 0.5)]).evaluate, fun _ => false⟩ none
      twoSpellings = .ok twoSpellingsBody := by
  decide +kernel

theorem tokenFree_twoSpellings : TokenFree twoSpellingsBody.joined.toList :=
  .of_no_marker (by decide +kernel)

theorem substitute_deferred_twoSpellings :
    ofOperations ⟨.default, some (Calculator.ofList [("x", 0.5)]).evaluate, fun _ => false⟩ none
        twoSpellings = .ok twoSpellingsBody ∧
      (∀ word, IsTokenWord word → ¬Text.WholeWord word twoSpellingsBody.joined.toList) ∧
      ∃ deferred cache bound,
        ofOperations ⟨.default, some (Calculator.ofList [("x", 0.5)]).evaluate, fun _ => false⟩
          (some .empty) twoSpellings = .ok deferred ∧
        deferred.declarations = twoSpellingsBody.declarations ∧
        deferred.lines.length = twoSpellingsBody.lines.length ∧
        deferred.cache = some cache ∧
        cache.bind (Calculator.ofList [("x", 0.5)]).evaluate = .ok bound ∧
        substitute deferred.joined (Table.ofList bound) = .ok twoSpellingsBody.joined :=
  ⟨ofOperations_twoSpellings, tokenFree_twoSpellings,
    substitute_deferred _ _ _ ofOperations_twoSpellings tokenFree_twoSpellings⟩

end OpenQasm.Body

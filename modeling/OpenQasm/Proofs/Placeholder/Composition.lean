import OpenQasm.Proofs.Backend.Problems
import OpenQasm.Proofs.Placeholder.Replacement
import OpenQasm.Proofs.Placeholder.Staging

/-!
# Writing operations in parts

Operations can be written in parts: the body of two lists of operations is that of the first and
then that of the second, which goes on with the cache that the first has left. The tokens in the
lines are those of the symbolic angles, one for each in order. What a token stands for stays as it
is, however many angles are staged later, so the lines of the first part keep their meaning.
-/
namespace OpenQasm

open Placeholder

namespace Placeholder

theorem IsTokenWord.isLiteral {word : List Char} (h : IsTokenWord word) :
    Number.isLiteral word = false := by
  have htrim : Text.trim word = word :=
    Text.trim_of_no_blanks (fun c hc => Text.isBlank_of_isNameChar (h.isNameChar c hc))
  obtain ⟨hex, ending, rfl, -⟩ := h
  have hnone : Decimal.scan? ("sym_".toList ++ hex ++ ending) = none := by
    cases hscan : Decimal.scan? ("sym_".toList ++ hex ++ ending) with
    | none => rfl
    | some found =>
        have hstart := (Expr.scan?_start hscan).2
        cases hstart
  have hsign : Number.scanSign ("sym_".toList ++ hex ++ ending) =
      (false, "sym_".toList ++ hex ++ ending) := rfl
  unfold Number.isLiteral Number.signedDecimal?
  rw [htrim, hsign]
  dsimp only
  rw [hnone]
  rfl

theorem isToken_literal (x : Float) : isToken (Number.literal x).toList = false := by
  rw [← Bool.not_eq_true, isToken_iff]
  intro htoken
  exact tokenFree_literal x _ htoken ⟨[], [], by simp, by simp, by simp⟩

namespace Cache

theorem Coherent.resolve_eq_ok_iff {c : Cache} (h : c.Coherent) {token : String}
    {value : Parameter} : c.resolve token = .ok value ↔ (token, value) ∈ c.entries := by
  unfold resolve
  constructor
  · intro hresolve
    cases hget : c.values.get? token with
    | none =>
        rw [hget] at hresolve
        cases hresolve
    | some v =>
        rw [hget] at hresolve
        cases hresolve
        exact Table.mem_of_get? hget
  · intro hmem
    rw [Table.get?_of_mem h.distinct hmem]

theorem Coherent.entries_stageAll {c : Cache} (h : c.Coherent) (values : List Parameter) :
    ∀ e ∈ c.entries, e ∈ (c.stageAll values).entries := by
  induction values generalizing c with
  | nil => exact fun e he => he
  | cons value values ih =>
      intro e he
      exact ih (h.staged value).coherent e ((h.staged value).extends_entries e he)

theorem Coherent.resolve_stageAll {c : Cache} (h : c.Coherent) {token : String}
    {value : Parameter} (hvalue : c.resolve token = .ok value) (later : List Parameter) :
    (c.stageAll later).resolve token = .ok value := by
  rw [h.resolve_eq_ok_iff] at hvalue
  exact (h.stageAll later).resolve_eq_ok_iff.mpr (h.entries_stageAll later _ hvalue)

theorem stagings_append (c : Cache) (values later : List Parameter) :
    c.stagings (values ++ later) = c.stagings values ++ (c.stageAll values).stagings later := by
  induction values generalizing c with
  | nil => rfl
  | cons value values ih =>
      rw [List.cons_append, stagings, ih]
      rfl

theorem forall₂_stagings {c : Cache} {values : List Parameter} {R : String → Parameter → Prop}
    (h : ∀ s ∈ c.stagings values, R s.1 s.2) :
    List.Forall₂ R ((c.stagings values).map Prod.fst) values := by
  have hpairs : List.Forall₂ R ((c.stagings values).map Prod.fst)
      ((c.stagings values).map Prod.snd) := by
    rw [List.forall₂_map_left_iff, List.forall₂_map_right_iff]
    exact List.forall₂_same.mpr h
  rwa [map_snd_stagings] at hpairs

/-- Each token that was given stands for a value with the text of that for which it was given. -/
theorem Coherent.resolve_stagings {c : Cache} (h : c.Coherent) (values : List Parameter) :
    ∀ s ∈ c.stagings values, ∃ value,
      (c.stageAll values).resolve s.1 = .ok value ∧ canonical value = canonical s.2 := by
  induction values generalizing c with
  | nil =>
      intro s hs
      cases hs
  | cons value values ih =>
      have hnext := (h.staged value).coherent
      intro s hs
      rcases List.mem_cons.mp hs with rfl | hs
      · obtain ⟨v, hmem, hcanonical⟩ := (h.staged value).found
        exact ⟨v, hnext.resolve_stageAll (hnext.resolve_eq_ok_iff.mpr hmem) values, hcanonical⟩
      · exact ih hnext s hs

end Cache

end Placeholder

namespace Line

def parameters : Line → List String
  | apply _ parameters _ => parameters
  | _ => []

def tokens (l : Line) : List String :=
  l.parameters.filter (fun p => isToken p.toList)

/-- A parameter that is not symbolic is written as a number, or as a text that is one. -/
theorem isToken_parameter {o : Options} {p : Parameter} {text : String}
    (hp : p.isSymbolic = false) (h : o.parameter p = .ok text) : isToken text.toList = false := by
  cases p with
  | number x =>
      obtain ⟨y, -, rfl⟩ := exists_of_map_ok h
      exact isToken_literal y
  | expression expression =>
      unfold Options.parameter at h
      dsimp only at h
      split at h
      · cases h
        rw [← Bool.not_eq_true, isToken_iff]
        intro htoken
        change (!Number.isLiteral text.toList) = false at hp
        rw [htoken.isLiteral] at hp
        cases hp
      · obtain ⟨y, -, rfl⟩ := exists_of_map_ok h
        exact isToken_literal y

theorem tokens_constants (kind : GateKind) :
    kind.constants.filter (fun p => isToken p.toList) = [] := by
  unfold GateKind.constants
  split <;> decide

theorem tokens_ofGate {o : Options} {g : Gate} {l : Line}
    (hg : ∀ p ∈ (Operation.gate g).evaluated false, p.isSymbolic = false)
    (h : ofGate o g = .ok l) : l.tokens = [] := by
  rw [ofGate_eq] at h
  obtain ⟨parameters, hparameters, h⟩ := exists_of_bind_ok h
  obtain ⟨operands, -, h⟩ := exists_of_bind_ok h
  cases h
  change (parameters ++ g.kind.constants).filter _ = []
  rw [List.filter_append, tokens_constants, List.append_nil, List.filter_eq_nil_iff]
  intro text htext
  obtain ⟨p, hp, hresult⟩ := exists_of_mem_mapM hparameters htext
  simp [isToken_parameter (hg p hp) hresult]

theorem tokens_ofColumn {o : Options} {g : ColumnGate} {l : Line} (h : ofColumn o g = .ok l) :
    l.tokens = [] := by
  obtain ⟨angles, operand, -, rfl⟩ := ofColumn_ok h
  simp [tokens, parameters, isToken_literal]

theorem tokens_ofOperation {o : Options} {op : Operation} {lines : List Line}
    (hop : op.deferred? = none) (h : ofOperation o op = .ok lines) :
    lines.flatMap tokens = [] := by
  cases op with
  | gate g =>
      obtain ⟨line, hline, rfl⟩ := exists_of_map_ok h
      have hg : ∀ p ∈ (Operation.gate g).evaluated false, p.isSymbolic = false := by
        intro p hp
        cases g with
        | rotation axis qubit theta =>
            obtain rfl := List.mem_singleton.mp hp
            simpa [Operation.deferred?] using hop
        | fixed gate qubit => cases hp
        | pair gate control target => cases hp
      rw [List.flatMap_singleton, tokens_ofGate hg hline]
  | column g =>
      obtain ⟨line, hline, rfl⟩ := exists_of_map_ok h
      rw [List.flatMap_singleton, tokens_ofColumn hline]
  | measure m =>
      obtain ⟨line, hline, rfl⟩ := exists_of_map_ok h
      obtain ⟨source, -, hline⟩ := exists_of_bind_ok hline
      cases hline
      rfl
  | measureRepeatedly m =>
      refine List.flatMap_eq_nil_iff.mpr (fun l hl => ?_)
      obtain ⟨source, target, rfl⟩ := eq_measure_of_ofRepeated h l hl
      rfl
  | define d =>
      cases h
      rfl
  | input name value =>
      cases h
      rfl
  | _ => cases h

end Line

namespace Body

/-- One body after another: the declarations and the lines of both, and the cache of the second. -/
def append (first second : Body) : Body :=
  ⟨first.declarations ++ second.declarations, first.lines ++ second.lines, second.cache⟩

/-- The body of two lists of operations, the second of which goes on with the cache of the first. -/
theorem ofOperations_append (o : Line.Options) (cache : Option Cache)
    (ops later : List Operation) :
    ofOperations o cache (ops ++ later) = (do
      let first ← ofOperations o cache ops
      let second ← ofOperations o first.cache later
      return first.append second) := by
  induction ops generalizing cache with
  | nil =>
      change ofOperations o cache later = ofOperations o cache later >>= fun second => pure second
      rw [bind_pure]
  | cons op ops ih =>
      rw [List.cons_append, ofOperations, ofOperations]
      cases step o cache op with
      | error e => rfl
      | ok head =>
          change (ofOperations o head.cache (ops ++ later) >>= _) =
            (ofOperations o head.cache ops >>= _) >>= _
          rw [ih]
          cases ofOperations o head.cache ops with
          | error e => rfl
          | ok first =>
              change (ofOperations o first.cache later >>= _) >>= _ =
                ofOperations o first.cache later >>= _
              cases ofOperations o first.cache later with
              | error e => rfl
              | ok second =>
                  simp [append, bind, Except.bind, pure, Except.pure]

theorem cache_of_none {o : Line.Options} {ops : List Operation} {body : Body}
    (h : ofOperations o none ops = .ok body) : body.cache = none := by
  rw [cache_ofOperations h]
  rfl

theorem tokens_step {o : Line.Options} {c : Cache} (hc : c.Coherent) {op : Operation} {body : Body}
    (h : step o (some c) op = .ok body) :
    body.lines.flatMap Line.tokens = (c.stagings op.deferred?.toList).map Prod.fst := by
  cases hdeferred : op.deferred? with
  | some theta =>
      obtain ⟨axis, qubit, rfl, htheta⟩ := Operation.eq_rotation_of_deferred hdeferred
      rw [step_of_symbolic o hc axis qubit htheta] at h
      obtain ⟨operand, -, rfl⟩ := exists_of_map_ok h
      obtain ⟨value, hmem, -⟩ := (hc.staged theta).found
      have hword := (hc.staged theta).coherent.isTokenWord _ (List.mem_map_of_mem hmem)
      have htoken : isToken (c.stage theta).1.toList = true := isToken_iff.mpr hword
      simp [Line.tokens, Line.parameters, htoken, Cache.stagings]
  | none =>
      by_cases hdef : op.isDefinition = true
      · cases op with
        | define d =>
            cases h
            rfl
        | _ => cases hdef
      · rw [step_of_not_deferred (Bool.not_eq_true _ ▸ hdef) hdeferred] at h
        obtain ⟨lines, hlines, rfl⟩ := exists_of_map_ok h
        exact Line.tokens_ofOperation hdeferred hlines

/-- The tokens in the lines are those of the symbolic angles, in order. -/
theorem tokens_ofOperations {o : Line.Options} {c : Cache} (hc : c.Coherent)
    {ops : List Operation} {body : Body} (h : ofOperations o (some c) ops = .ok body) :
    body.lines.flatMap Line.tokens =
      (c.stagings (ops.filterMap Operation.deferred?)).map Prod.fst := by
  induction ops generalizing c body with
  | nil =>
      cases h
      rfl
  | cons op ops ih =>
      obtain ⟨head, hhead, h⟩ := exists_of_bind_ok h
      obtain ⟨tail, htail, h⟩ := exists_of_bind_ok h
      cases h
      have hangles : (op :: ops).filterMap Operation.deferred? =
          op.deferred?.toList ++ ops.filterMap Operation.deferred? := by
        cases hdeferred : op.deferred? <;> simp [hdeferred]
      rw [step_cache hhead] at htail
      rw [List.flatMap_append, tokens_step hc hhead, ih (hc.stageAll _) htail, hangles,
        Cache.stagings_append, List.map_append]

/-- Operations can be written in parts. Without a cache, two lists of operations together have a
body exactly if both have one, which is then the one after the other, and otherwise the error of the
first that has none. With a cache the same holds if the second part goes on with the cache of the
first. The tokens in the lines of the first part are one for each of its symbolic angles, and each
stands for the same value, of the text of the angle, in the end as it does after that part. -/
theorem ofOperations_composes (o : Line.Options) (ops later : List Operation) :
    (ofOperations o none (ops ++ later) = do
      let first ← ofOperations o none ops
      let second ← ofOperations o none later
      return first.append second) ∧
    ∀ staged : List Parameter,
      (ofOperations o (some (Cache.empty.stageAll staged)) (ops ++ later) = do
        let first ← ofOperations o (some (Cache.empty.stageAll staged)) ops
        let second ← ofOperations o first.cache later
        return first.append second) ∧
      ∀ first second, ofOperations o (some (Cache.empty.stageAll staged)) ops = .ok first →
        ofOperations o first.cache later = .ok second →
        ∃ cache final, first.cache = some cache ∧ second.cache = some final ∧
          (∀ token value, cache.resolve token = .ok value → final.resolve token = .ok value) ∧
          List.Forall₂ (fun token theta => ∃ value, cache.resolve token = .ok value ∧
              final.resolve token = .ok value ∧ canonical value = canonical theta)
            (first.lines.flatMap Line.tokens) (ops.filterMap Operation.deferred?) := by
  refine ⟨?_, fun staged => ⟨ofOperations_append _ _ _ _, ?_⟩⟩
  · rw [ofOperations_append]
    cases hfirst : ofOperations o none ops with
    | error e => rfl
    | ok first =>
        change (ofOperations o first.cache later >>= _) = ofOperations o none later >>= _
        rw [cache_of_none hfirst]
  · intro first second hfirst hsecond
    have hcoherent := Cache.coherent_empty.stageAll staged
    generalize Cache.empty.stageAll staged = c at hfirst hcoherent
    have hcache := cache_ofOperations hfirst
    have hfinal := cache_ofOperations hsecond
    rw [hcache] at hfinal
    have hnext := hcoherent.stageAll (ops.filterMap Operation.deferred?)
    refine ⟨_, _, hcache, hfinal, fun token value hvalue => hnext.resolve_stageAll hvalue _, ?_⟩
    rw [tokens_ofOperations hcoherent hfirst]
    refine Cache.forall₂_stagings (fun s hs => ?_)
    obtain ⟨value, hvalue, hcanonical⟩ := hcoherent.resolve_stagings _ s hs
    exact ⟨value, hvalue, hnext.resolve_stageAll hvalue _, hcanonical⟩

end Body

end OpenQasm

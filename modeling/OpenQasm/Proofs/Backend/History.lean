import OpenQasm.Proofs.Backend.Pipeline

/-!
# A backend over many calls

The placeholders of a program are staged in a cache of its own, which starts empty: in the end it
holds the symbolic angles of the circuit, in order, and nothing else. A backend takes that cache
over once the whole program is written. So a call neither sees what earlier calls have staged nor
leaves anything behind if it fails, and the backend holds the cache of the last symbolic call that
succeeded.
-/
namespace OpenQasm

open Placeholder

namespace Body

/-- A step stages the angle of its operation, if there is a cache and the angle is symbolic. -/
theorem step_cache {o : Line.Options} {cache : Option Cache} {op : Operation} {body : Body}
    (h : step o cache op = .ok body) :
    body.cache = cache.map (fun c => c.stageAll op.deferred?.toList) := by
  obtain ⟨d, rfl, rfl⟩ | ⟨c, axis, qubit, theta, line, rfl, rfl, hsymbolic, -, rfl⟩ |
    ⟨-, rfl | hdeferred, lines, -, rfl⟩ := step_ok h
  · exact Option.map_id'.symm
  · have hdeferred : (Operation.gate (.rotation axis qubit theta)).deferred? = some theta :=
      if_pos hsymbolic
    rw [hdeferred]
    rfl
  · rfl
  · rw [hdeferred]
    exact Option.map_id'.symm

theorem cache_ofOperations {o : Line.Options} {cache : Option Cache} {ops : List Operation}
    {body : Body} (h : ofOperations o cache ops = .ok body) :
    body.cache = cache.map (fun c => c.stageAll (ops.filterMap Operation.deferred?)) := by
  induction h using ofOperations_induction with
  | nil cache => exact Option.map_id'.symm
  | cons cache op ops head tail hhead htail ih =>
      have hsplit : (op :: ops).filterMap Operation.deferred? =
          op.deferred?.toList ++ ops.filterMap Operation.deferred? := by
        cases hop : op.deferred? <;> simp [hop]
      change tail.cache = _
      rw [ih, step_cache hhead, Option.map_map, hsplit]
      congr 1
      funext c
      exact List.foldl_append.symm

end Body

namespace Backend

/-- The placeholders of a program: in symbolic mode the symbolic angles of its circuit, staged from
the empty cache on, and none otherwise. -/
theorem cache_compile {o : Options} {ops : List Operation} {symbolic : Bool} {output : Output}
    (h : compile o ops symbolic = .ok output) :
    output.body.cache =
      if symbolic then some (Cache.empty.stageAll (ops.filterMap Operation.deferred?))
      else none := by
  obtain ⟨c, hclassified, h⟩ := exists_of_bind_ok h
  obtain ⟨body, hbody, h⟩ := exists_of_bind_ok h
  cases h
  have hwritten : (ops.filter Classified.isWritten).filterMap Operation.deferred? =
      ops.filterMap Operation.deferred? := by
    rw [List.filterMap_filter]
    congr 1
    funext op
    cases op <;> rfl
  have hcircuit : c.circuit.operations = ops.filter Classified.isWritten := by
    rw [(Classified.ofOperations_ok (ok_of_mapError_ok hclassified)).1]
    rfl
  change body.cache = _
  rw [Body.cache_ofOperations (ok_of_mapError_ok hbody), hcircuit, hwritten]
  cases symbolic <;> rfl

theorem run_fst (b : Backend) (ops : List Operation) (symbolic : Bool) :
    (b.run ops symbolic).1 = compile b.options ops symbolic := by
  unfold run
  cases compile b.options ops symbolic <;> rfl

/-- What a backend is asked for. -/
structure Call where
  operations : List Operation
  symbolic : Bool

/-- What a newly built backend answers. -/
def answer (o : Options) (call : Call) : Except Error Output :=
  ((new o).run call.operations call.symbolic).1

theorem answer_eq (o : Options) (call : Call) :
    answer o call = compile o call.operations call.symbolic :=
  run_fst (new o) call.operations call.symbolic

/-- A call after which the backend holds the placeholders of that call. -/
def Stores (o : Options) (call : Call) : Prop :=
  call.symbolic = true ∧ ∃ output, answer o call = .ok output

theorem run_of_stores {b : Backend} {call : Call} {output : Output}
    (hsymbolic : call.symbolic = true) (houtput : answer b.options call = .ok output) :
    (b.run call.operations call.symbolic).2 = ⟨b.options, output.body.cache⟩ := by
  rw [answer_eq] at houtput
  have hcache := cache_compile houtput
  rw [if_pos hsymbolic] at hcache
  unfold run
  rw [houtput]
  dsimp only
  rw [hcache]
  rfl

theorem run_of_not_stores {b : Backend} {call : Call} (h : ¬Stores b.options call) :
    (b.run call.operations call.symbolic).2 = b := by
  unfold run
  cases hcompile : compile b.options call.operations call.symbolic with
  | error e => rfl
  | ok output =>
      have hsymbolic : call.symbolic = false := by
        rw [← Bool.not_eq_true]
        exact fun hs => h ⟨hs, output, (answer_eq b.options call).trans hcompile⟩
      have hcache := cache_compile hcompile
      rw [hsymbolic, if_neg Bool.false_ne_true] at hcache
      dsimp only
      rw [hcache]
      rfl

/-- Calls in order on one backend: their answers, and the backend afterwards. -/
def runAll (b : Backend) : List Call → List (Except Error Output) × Backend
  | [] => ([], b)
  | call :: calls =>
      let (result, next) := b.run call.operations call.symbolic
      let (results, last) := next.runAll calls
      (result :: results, last)

theorem runAll_concat (b : Backend) (calls : List Call) (call : Call) :
    b.runAll (calls ++ [call]) =
      ((b.runAll calls).1 ++ [((b.runAll calls).2.run call.operations call.symbolic).1],
        ((b.runAll calls).2.run call.operations call.symbolic).2) := by
  induction calls generalizing b with
  | nil => rfl
  | cons first calls ih =>
      rw [List.cons_append, runAll, runAll]
      dsimp only
      rw [ih]
      rfl

theorem options_runAll (b : Backend) (calls : List Call) :
    (b.runAll calls).2.options = b.options := by
  induction calls using List.reverseRecOn with
  | nil => rfl
  | append_singleton calls call ih =>
      rw [runAll_concat, ← ih]
      dsimp only
      unfold run
      split <;> rfl

/-- The placeholders after some calls: those of the last call that stores its own, which are the
symbolic angles of its circuit, and none if there was no such call. -/
inductive Holds (o : Options) : List Call → Option Cache → Prop
  | none {calls : List Call} (h : ∀ call ∈ calls, ¬Stores o call) : Holds o calls none
  | last {before after : List Call} {call : Call} {output : Output} {cache : Cache}
      (hsymbolic : call.symbolic = true) (houtput : answer o call = .ok output)
      (hcache : output.body.cache = some cache)
      (hangles : cache = Cache.empty.stageAll (call.operations.filterMap Operation.deferred?))
      (hlater : ∀ later ∈ after, ¬Stores o later) :
      Holds o (before ++ call :: after) (some cache)

theorem Holds.concat {o : Options} {calls : List Call} {cache : Option Cache}
    (h : Holds o calls cache) {call : Call} (hcall : ¬Stores o call) :
    Holds o (calls ++ [call]) cache := by
  have hsnoc {cs : List Call} (hcs : ∀ c ∈ cs, ¬Stores o c) : ∀ c ∈ cs ++ [call], ¬Stores o c := by
    intro c hc
    rcases List.mem_append.mp hc with hc | hc
    · exact hcs c hc
    · rw [List.mem_singleton.mp hc]
      exact hcall
  cases h with
  | none h => exact .none (hsnoc h)
  | last hsymbolic houtput hcache hangles hlater =>
      rw [List.append_assoc, List.cons_append]
      exact .last hsymbolic houtput hcache hangles (hsnoc hlater)

theorem holds_runAll (o : Options) (calls : List Call) :
    Holds o calls ((new o).runAll calls).2.cache := by
  induction calls using List.reverseRecOn with
  | nil => exact .none (fun call h => by cases h)
  | append_singleton calls call ih =>
      have hoptions : ((new o).runAll calls).2.options = o := options_runAll (new o) calls
      rw [runAll_concat]
      by_cases hstores : Stores o call
      · obtain ⟨hsymbolic, output, houtput⟩ := hstores
        have hcache := cache_compile ((answer_eq o call).symm.trans houtput)
        rw [if_pos hsymbolic] at hcache
        dsimp only
        rw [run_of_stores hsymbolic (hoptions.symm ▸ houtput), hcache]
        exact .last hsymbolic houtput hcache rfl (fun later h => by cases h)
      · dsimp only
        rw [run_of_not_stores (hoptions.symm ▸ hstores)]
        exact ih.concat hstores

theorem results_runAll (o : Options) (calls : List Call) :
    ((new o).runAll calls).1 = calls.map (answer o) := by
  induction calls using List.reverseRecOn with
  | nil => rfl
  | append_singleton calls call ih =>
      rw [runAll_concat, List.map_append, List.map_singleton, ih, run_fst, options_runAll,
        answer_eq]
      rfl

/-- Any calls on one backend: each is answered as by a new backend with the same options, and
afterwards the backend holds the placeholders of the last symbolic call that succeeded. A call that
fails or is not symbolic leaves any backend as it is. -/
theorem runAll_answers (o : Options) (calls : List Call) :
    ((new o).runAll calls).1 = calls.map (fun call =>
        ((new o).run call.operations call.symbolic).1) ∧
      ((new o).runAll calls).2.options = o ∧
      Holds o calls ((new o).runAll calls).2.cache ∧
      ∀ (b : Backend) (call : Call), ¬Stores b.options call →
        (b.run call.operations call.symbolic).2 = b :=
  ⟨results_runAll o calls, options_runAll (new o) calls, holds_runAll o calls,
    fun _ _ h => run_of_not_stores h⟩

/-- The second call fails after it has staged its angle, and the third stages none. -/
example :
    ((new .default).runAll
      [⟨[.gate (.rotation .x 0 (.expression "a"))], true⟩,
        ⟨[.gate (.rotation .x 0 (.expression "b")), .foreign "f" []], true⟩,
        ⟨[.gate (.fixed .hadamard 0)], false⟩]).2.cache =
      some (Cache.empty.stageAll [.expression "a"]) := by
  decide +kernel

end Backend

end OpenQasm

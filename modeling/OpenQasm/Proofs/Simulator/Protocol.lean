import OpenQasm.Proofs.Simulator.Requests
import OpenQasm.Proofs.Table

/-!
# The calls of a measurement

A measurement goes through its circuits in order. A circuit without a request is not handed to the
simulator, every other one is handed over exactly once, and the first that fails is the last one
looked at. So the calls that are made and the responses that are used up run in step with the
circuits: the response to a circuit is the one at its own place in the script. What is found is
merged register by register, and the last circuit that has a register decides its value.
-/
namespace OpenQasm

namespace OutputRegisters

/-- No register has two entries. -/
structure Distinct (r : OutputRegisters) : Prop where
  bit : r.bit.keys.Nodup
  float : r.float.keys.Nodup
  complex : r.complex.keys.Nodup

theorem distinct_empty : empty.Distinct :=
  ⟨List.nodup_nil, List.nodup_nil, List.nodup_nil⟩

/-- The registers found one after another, merged. -/
structure Merges (found : List OutputRegisters) (r : OutputRegisters) : Prop where
  bit : Table.Merges (found.map OutputRegisters.bit) r.bit
  float : Table.Merges (found.map OutputRegisters.float) r.float
  complex : Table.Merges (found.map OutputRegisters.complex) r.complex

theorem merges_nil : Merges [] empty :=
  ⟨Table.merges_nil, Table.merges_nil, Table.merges_nil⟩

theorem Merges.concat {found : List OutputRegisters} {r s : OutputRegisters}
    (h : Merges found r) (hs : s.Distinct) : Merges (found ++ [s]) (r.merge s) where
  bit := by
    rw [List.map_append]
    exact h.bit.concat hs.bit
  float := by
    rw [List.map_append]
    exact h.float.concat hs.float
  complex := by
    rw [List.map_append]
    exact h.complex.concat hs.complex

end OutputRegisters

namespace Simulator

theorem distinct_place {r : OutputRegisters} (h : r.Distinct) (decoded : Outcome.BitRegisters)
    (d : Declaration) : (place decoded r d).Distinct := by
  unfold place
  split
  next => exact h
  next =>
    split
    next => exact { h with bit := Table.nodup_keys_insert h.bit _ _ }
    next => exact { h with float := Table.nodup_keys_insert h.float _ _ }
    next => exact { h with complex := Table.nodup_keys_insert h.complex _ _ }
    next => exact h

theorem distinct_placed {r : OutputRegisters} (h : r.Distinct) (decoded : Outcome.BitRegisters)
    (ds : List Declaration) : (ds.foldl (place decoded) r).Distinct := by
  induction ds generalizing r with
  | nil => exact h
  | cons d ds ih => exact ih (distinct_place h decoded d)

theorem distinct_placeState {m : Metadata} {a : Answer} {r s : OutputRegisters} (h : r.Distinct)
    (hs : placeStateVector m a r = .ok s ∨ placeDensityMatrix m a r = .ok s) : s.Distinct := by
  have hinsert (name : String) (v : List (List Complex)) :
      OutputRegisters.Distinct { r with complex := r.complex.insert name v } :=
    { h with complex := Table.nodup_keys_insert h.complex name v }
  simp only [placeStateVector, placeDensityMatrix] at hs
  rcases hs with hs | hs
  all_goals
    split at hs
    · split at hs
      · cases hs
        exact hinsert _ _
      · cases hs
    · cases hs
      exact h

theorem distinct_readout {o : Options} {c : Classified} {a : Answer} {r : OutputRegisters}
    (h : readout o c a = .ok r) : r.Distinct := by
  have hstates (decoded : Outcome.BitRegisters)
      (h : (placeStateVector c.metadata a (c.circuit.definitions.foldl (place decoded) .empty) >>=
        placeDensityMatrix c.metadata a) = .ok r) : r.Distinct := by
    obtain ⟨s, hvector, hmatrix⟩ := exists_of_bind_ok h
    have hplaced := distinct_placed OutputRegisters.distinct_empty decoded c.circuit.definitions
    exact distinct_placeState (distinct_placeState hplaced (.inl hvector)) (.inr hmatrix)
  unfold readout at h
  dsimp only at h
  split at h
  next =>
    obtain ⟨decoded, -, h⟩ := exists_of_bind_ok h
    exact hstates decoded h
  next => exact hstates .empty h

namespace Script

/-- The response to the call that is `k` calls ahead; after its end a script gives empty answers. -/
def reply (script : Script) (k : ℕ) : Response :=
  script.responses.getD k (.answered .none)

/-- The script after some requests, each of which has used up one response. -/
def after (script : Script) (requests : List Request) : Script :=
  ⟨script.responses.drop requests.length, script.requests ++ requests⟩

theorem after_nil (script : Script) : script.after [] = script := by
  unfold after
  rw [List.append_nil]
  rfl

theorem after_after (script : Script) (xs ys : List Request) :
    (script.after xs).after ys = script.after (xs ++ ys) := by
  unfold after
  rw [List.drop_drop, List.length_append, List.append_assoc]

theorem reply_after (script : Script) (request : Request) (k : ℕ) :
    (script.after [request]).reply k = script.reply (k + 1) := by
  unfold reply after
  rw [List.getD_eq_getElem?_getD, List.getD_eq_getElem?_getD, List.getElem?_drop, Nat.add_comm]
  rfl

end Script

theorem scripted_call (name : String) (script : Script) (request : Request) :
    (scripted name).call script request = (script.reply 0, script.after [request]) := by
  obtain ⟨responses, requests⟩ := script
  cases responses <;> rfl

/-- What becomes of a circuit, given the response that is at hand: the requests that are made, and
the result. A failure is the cause of the error, unless its text cannot be had. -/
inductive Ends (o : Options) (name : String) (ops : List Operation) (response : Response) :
    List Request → Except Error OutputRegisters → Prop
  | refused {e : Error} (h : Refuses o ops e) : Ends o name ops response [] (.error e)
  | failed {c : Classified} {request : Request} {thrown : Thrown} {reason : String}
      (h : Asks o ops c request) (hresponse : response = .failed thrown)
      (htext : thrown.text = .ok reason) :
      Ends o name ops response [request] (.error (.failed name reason thrown))
  | raised {c : Classified} {request : Request} {thrown other : Thrown}
      (h : Asks o ops c request) (hresponse : response = .failed thrown)
      (htext : thrown.text = .error other) :
      Ends o name ops response [request] (.error (.raised other))
  | answered {c : Classified} {request : Request} {a : Answer} (h : Asks o ops c request)
      (hresponse : response = .answered a) : Ends o name ops response [request] (readout o c a)

theorem ends_of_failed {o : Options} {ops : List Operation} {c : Classified} {request : Request}
    (h : Asks o ops c request) (name : String) (thrown : Thrown) :
    Ends o name ops (.failed thrown) [request] (.error (.ofThrown name thrown)) := by
  unfold Error.ofThrown
  cases htext : thrown.text with
  | ok reason => exact .failed h rfl htext
  | error other => exact .raised h rfl htext

theorem run_scripted (o : Options) (name : String) (script : Script) (ops : List Operation) :
    ∃ requests result, run o (scripted name) script ops = (result, script.after requests) ∧
      Ends o name ops (script.reply 0) requests result := by
  unfold run
  cases hprepare : prepare o ops with
  | error e =>
      refine ⟨[], .error e, ?_, .refused (refuses_of_prepare hprepare)⟩
      rw [script.after_nil]
  | ok prepared =>
      obtain ⟨c, request⟩ := prepared
      have hasks := asks_of_prepare hprepare
      dsimp only
      rw [scripted_call]
      cases hreply : script.reply 0 with
      | failed thrown => exact ⟨[request], _, rfl, ends_of_failed hasks name thrown⟩
      | answered a => exact ⟨[request], _, rfl, .answered hasks rfl⟩

/-- A circuit that succeeds has made one request, and its registers are distinct. -/
theorem Ends.of_ok {o : Options} {name : String} {ops : List Operation} {response : Response}
    {requests : List Request} {r : OutputRegisters}
    (h : Ends o name ops response requests (.ok r)) :
    (∃ request, requests = [request]) ∧ r.Distinct := by
  generalize hresult : Except.ok r = result at h
  cases h with
  | refused => cases hresult
  | failed => cases hresult
  | raised => cases hresult
  | answered => exact ⟨⟨_, rfl⟩, distinct_readout hresult.symm⟩

/-- The circuits that are done: each in its place made one request, took the response at the same
place of the script, and gave its registers. -/
def Completes (o : Options) (name : String) (script : Script) (circuits : List (List Operation))
    (done : List (Request × OutputRegisters)) : Prop :=
  ∀ k x, done[k]? = some x →
    ∃ ops, circuits[k]? = some ops ∧ Ends o name ops (script.reply k) [x.1] (.ok x.2)

theorem completes_nil (o : Options) (name : String) (script : Script)
    (circuits : List (List Operation)) : Completes o name script circuits [] := by
  intro k x hx
  cases hx

theorem Completes.cons {o : Options} {name : String} {script : Script} {ops : List Operation}
    {circuits : List (List Operation)} {request : Request} {r : OutputRegisters}
    {done : List (Request × OutputRegisters)}
    (h : Ends o name ops (script.reply 0) [request] (.ok r))
    (hdone : Completes o name (script.after [request]) circuits done) :
    Completes o name script (ops :: circuits) ((request, r) :: done) := by
  intro k x hx
  cases k with
  | zero =>
      cases hx
      exact ⟨ops, rfl, h⟩
  | succ k =>
      obtain ⟨ops', hops', hends⟩ := hdone k x hx
      rw [script.reply_after] at hends
      exact ⟨ops', hops', hends⟩

/-- All circuits, or those before the first that fails and that one. -/
theorem runAll_scripted (o : Options) (name : String) (circuits : List (List Operation))
    (script : Script) {found : List OutputRegisters} {registers : OutputRegisters}
    (hregisters : OutputRegisters.Merges found registers) :
    ∃ done, Completes o name script circuits done ∧
      ((done.length = circuits.length ∧
          ∃ merged, runAll o (scripted name) script registers circuits =
              (.ok merged, script.after (done.map Prod.fst)) ∧
            OutputRegisters.Merges (found ++ done.map Prod.snd) merged) ∨
        ∃ ops requests e, circuits[done.length]? = some ops ∧
          Ends o name ops (script.reply done.length) requests (.error e) ∧
          runAll o (scripted name) script registers circuits =
            (.error e, script.after (done.map Prod.fst ++ requests))) := by
  induction circuits generalizing script found registers with
  | nil =>
      refine ⟨[], completes_nil o name script [], .inl ⟨rfl, registers, ?_, ?_⟩⟩
      · rw [List.map_nil, script.after_nil]
        rfl
      · rw [List.map_nil, List.append_nil]
        exact hregisters
  | cons ops circuits ih =>
      obtain ⟨requests, result, hrun, hends⟩ := run_scripted o name script ops
      cases result with
      | error e =>
          refine ⟨[], completes_nil o name script _, .inr ⟨ops, requests, e, rfl, hends, ?_⟩⟩
          rw [runAll, hrun]
          rfl
      | ok r =>
          obtain ⟨⟨request, rfl⟩, hdistinct⟩ := hends.of_ok
          have hstep : runAll o (scripted name) script registers (ops :: circuits) =
              runAll o (scripted name) (script.after [request]) (registers.merge r) circuits := by
            rw [runAll, hrun]
          obtain ⟨done, hdone, hrest⟩ :=
            ih (script.after [request]) (hregisters.concat hdistinct)
          refine ⟨(request, r) :: done, hdone.cons hends, ?_⟩
          rw [hstep]
          rcases hrest with
            ⟨hlength, merged, hmerged, hmerges⟩ | ⟨next, requests, e, hnext, hlast, herror⟩
          · refine .inl ⟨congrArg Nat.succ hlength, merged, ?_, ?_⟩
            · rw [hmerged, script.after_after]
              rfl
            · rw [List.append_assoc] at hmerges
              exact hmerges
          · refine .inr ⟨next, requests, e, hnext, ?_, ?_⟩
            · rw [script.reply_after] at hlast
              exact hlast
            · rw [herror, script.after_after]
              rfl

/-- What is run for the circuits of a measurement: each circuit, after the constant one if there is
one. -/
def prefixed (constant : Option Circuit) (circuits : List Circuit) : List (List Operation) :=
  match constant with
  | some d => circuits.map (fun c => d.operations ++ c.operations)
  | none => circuits.map Circuit.operations

theorem runMeasurement_eq {σ : Type} (o : Options) (s : Simulator σ) (state : σ)
    (constant : Option Circuit) (circuits : List Circuit) :
    runMeasurement o s state constant circuits =
      runAll o s state .empty (prefixed constant circuits) := by
  cases constant <;> rfl

/-- A measurement on a scripted simulator, whatever it was asked before. Some circuits are done in
order, one call each, the `k`-th call with the `k`-th response. Either these are all circuits, and
each register has the value of the last circuit that gave it; or the next circuit fails, and its
error is the result, after at most the one call that it makes. What the simulator has thrown is the
cause of that error if it has a text. If not, what is thrown in place of the text is the error. -/
theorem runMeasurement_scripted (o : Options) (name : String) (script : Script)
    (constant : Option Circuit) (circuits : List Circuit) :
    ∃ done : List (Request × OutputRegisters),
      (∀ k x, done[k]? = some x → ∃ ops, (prefixed constant circuits)[k]? = some ops ∧
        Ends o name ops (script.reply k) [x.1] (.ok x.2)) ∧
      ((done.length = circuits.length ∧
          ∃ merged, runMeasurement o (scripted name) script constant circuits =
              (.ok merged, script.after (done.map Prod.fst)) ∧
            OutputRegisters.Merges (done.map Prod.snd) merged) ∨
        ∃ ops requests e, (prefixed constant circuits)[done.length]? = some ops ∧
          Ends o name ops (script.reply done.length) requests (.error e) ∧
          runMeasurement o (scripted name) script constant circuits =
            (.error e, script.after (done.map Prod.fst ++ requests))) := by
  have hlength : (prefixed constant circuits).length = circuits.length := by
    unfold prefixed
    split <;> exact List.length_map _
  rw [runMeasurement_eq, ← hlength]
  exact runAll_scripted o name (prefixed constant circuits) script OutputRegisters.merges_nil

/-- One qubit is measured, and the simulator throws a value without a text. The error is the one of
asking for the text, and the value that was thrown is not its cause. -/
theorem runMeasurement_textless :
    runMeasurement .default (scripted "aer_simulator")
        ⟨[.failed (.textless (.error "TypeError" "Cannot convert object to primitive value"))], []⟩
        none [⟨none, [.define ⟨.bit, "ro", 1, true⟩, .measure ⟨0, "ro", 0⟩]⟩] =
      (.error (.raised (.error "TypeError" "Cannot convert object to primitive value")),
        ⟨[], [⟨"OPENQASM 2.0;\ninclude \"qelib1.inc\";\nqreg q[1];\ncreg ro[1];\n" ++
          "measure q[0] -> ro[0];\n", 1, none⟩]⟩) := by
  decide +kernel

end Simulator

end OpenQasm

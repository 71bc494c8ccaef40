import OpenQasm.Proofs.Backend.Declarations
import OpenQasm.Proofs.Number.Naturals

/-!
# Circuits over many calls

A program holds circuits and calls their methods in any order. Some calls fail, and the program goes
on with the circuits as the failed call has left them. Each call takes a session of circuits to the
next, and in every session that calls lead to all qubits are natural numbers. A circuit that was
only put together the careful way also has no gate on one qubit twice, no empty register and no
count of measurements that is not positive. That qubits are valid is why joining circuits never
fails.
-/
namespace OpenQasm

namespace Number

/-- A number without a fraction that is not negative. Zero may have either sign. -/
def Natural (x : Float) : Prop :=
  x.isFinite = true ∧ ∃ n : ℕ, value x = n

/-- A number without a fraction that is positive. -/
def Positive (x : Float) : Prop :=
  x.isFinite = true ∧ ∃ n : ℕ, 0 < n ∧ value x = n

end Number

namespace Operation

def IsValid (op : Operation) : Prop :=
  ∀ q ∈ op.qubits, Number.Natural q

/-- What is asked of an operation by itself before it is built into a circuit. -/
def IsCareful : Operation → Prop
  | gate (.pair _ control target) => Number.value control ≠ Number.value target
  | define d => Number.Positive d.length
  | measureRepeatedly m => Number.Positive m.count
  | setShots s => Number.Positive s.count
  | _ => True

theorem isValid_iff {op : Operation} :
    op.IsValid ↔ ∀ q ∈ op.qubits, Number.isNatural q = true :=
  forall₂_congr (fun _ _ => Number.isNatural_iff.symm)

end Operation

namespace Circuit

def extended (c : Circuit) (ops : List Operation) : Circuit :=
  ⟨c.name, c.operations ++ ops⟩

theorem extended_nil (c : Circuit) : c.extended [] = c := by
  unfold extended
  rw [List.append_nil]

theorem extended_extended (c : Circuit) (ops ops' : List Operation) :
    (c.extended ops).extended ops' = c.extended (ops ++ ops') := by
  unfold extended
  rw [List.append_assoc]

/-- An operation that can be built into a circuit: a definition is new there. -/
def Admits (c : Circuit) (op : Operation) : Prop :=
  op.IsValid ∧ op.IsCareful ∧ ∀ d, op = .define d → ∀ e ∈ c.definitions, e.name ≠ d.name

theorem add_of_valid {c : Circuit} {op : Operation} (h : op.IsValid) :
    c.add op = .ok (c.extended [op]) :=
  add_eq_ok (Operation.isValid_iff.mp h)

theorem add_of_not_valid (c : Circuit) {op : Operation} (h : ¬ op.IsValid) :
    ∃ q ∈ op.qubits, ¬ Number.Natural q ∧ c.add op = .error (.invalidQubit q) := by
  cases hadd : c.add op with
  | ok d => exact absurd (Operation.isValid_iff.mpr (add_ok hadd).1) h
  | error e =>
      obtain ⟨q, hq, hnatural, rfl⟩ := add_error hadd
      exact ⟨q, hq, fun h => by simp [Number.isNatural_iff.mpr h] at hnatural, rfl⟩

/-- The checks of an operation with natural qubits are those of the operation by itself, and that a
definition is new. -/
theorem check_eq_ok_iff {c : Circuit} {op : Operation} (h : op.IsValid) :
    c.check op = .ok () ↔
      op.IsCareful ∧ ∀ d, op = .define d → ∀ e ∈ c.definitions, e.name ≠ d.name := by
  cases op with
  | gate g =>
      cases g with
      | pair gate control target =>
          have hcontrol := (h control (.head _)).1
          have htarget := (h target (.tail _ (.head _))).1
          have hbeq := Number.beq_iff_value hcontrol htarget
          unfold check Operation.IsCareful
          dsimp only
          split
          next hsame => simp [hbeq.mp hsame]
          next hdifferent => simp [mt hbeq.mpr hdifferent]
      | _ => simp [check, Operation.IsCareful]
  | define d =>
      have hpositive : Operation.IsCareful (.define d) ↔ Number.isPositive d.length = true :=
        Number.isPositive_iff.symm
      rw [hpositive]
      unfold check
      dsimp only
      split
      next hlength =>
        rw [Bool.not_eq_true'] at hlength
        simp [hlength]
      next hlength =>
        split
        next hdefined =>
          obtain ⟨e, he, hname⟩ := List.any_eq_true.mp hdefined
          exact iff_of_false (fun hok => by cases hok)
            (fun hnew => hnew.2 d rfl e he (beq_iff_eq.mp hname))
        next hnew =>
          refine iff_of_true rfl ⟨by simpa using hlength, fun d' hd e he hname => hnew ?_⟩
          cases hd
          exact List.any_eq_true.mpr ⟨e, he, beq_iff_eq.mpr hname⟩
  | measureRepeatedly m =>
      have hpositive : Operation.IsCareful (.measureRepeatedly m) ↔
          Number.isPositive m.count = true := Number.isPositive_iff.symm
      rw [hpositive]
      unfold check
      dsimp only
      split <;> simp_all
  | setShots s =>
      have hpositive : Operation.IsCareful (.setShots s) ↔ Number.isPositive s.count = true :=
        Number.isPositive_iff.symm
      rw [hpositive]
      unfold check
      dsimp only
      split <;> simp_all
  | _ => simp [check, Operation.IsCareful]

theorem add_eq_ok_iff {c d : Circuit} {op : Operation} :
    c.add op = .ok d ↔ op.IsValid ∧ d = c.extended [op] := by
  constructor
  · intro h
    exact ⟨Operation.isValid_iff.mpr (add_ok h).1, (add_ok h).2⟩
  · rintro ⟨hvalid, rfl⟩
    exact add_of_valid hvalid

theorem build_of_admits {c : Circuit} {op : Operation} (h : c.Admits op) :
    c.build op = .ok (c.extended [op]) := by
  unfold build
  rw [(check_eq_ok_iff h.1).mpr h.2]
  exact add_of_valid h.1

theorem build_eq_ok_iff {c d : Circuit} {op : Operation} :
    c.build op = .ok d ↔ c.Admits op ∧ d = c.extended [op] := by
  constructor
  · intro h
    unfold build at h
    split at h
    next hcheck =>
      obtain ⟨hvalid, rfl⟩ := add_eq_ok_iff.mp h
      exact ⟨⟨hvalid, (check_eq_ok_iff hvalid).mp hcheck⟩, rfl⟩
    next => cases h
  · rintro ⟨hadmits, rfl⟩
    exact build_of_admits hadmits

theorem build_of_not_admits {c : Circuit} {op : Operation} (h : ¬ c.Admits op) :
    ∃ e, c.build op = .error e := by
  cases hbuild : c.build op with
  | ok d => exact absurd (build_eq_ok_iff.mp hbuild).1 h
  | error e => exact ⟨e, rfl⟩

theorem append_of_valid {c : Circuit} {ops : List Operation} (h : ∀ op ∈ ops, op.IsValid) :
    c.append ops = (c.extended ops, none) := by
  induction ops generalizing c with
  | nil => rw [append, extended_nil]
  | cons op ops ih =>
      rw [append, add_of_valid (h op (.head _))]
      dsimp only
      rw [ih (fun op' hop' => h op' (.tail _ hop')), extended_extended]
      rfl

/-- Appending stops before the first operation with an invalid qubit. -/
theorem append_of_not_valid (c : Circuit) {before : List Operation} (after : List Operation)
    {op : Operation} (hbefore : ∀ op ∈ before, op.IsValid) (hop : ¬ op.IsValid) :
    ∃ q ∈ op.qubits, ¬ Number.Natural q ∧
      c.append (before ++ op :: after) = (c.extended before, some (.invalidQubit q)) := by
  induction before generalizing c with
  | nil =>
      obtain ⟨q, hq, hnatural, he⟩ := c.add_of_not_valid hop
      refine ⟨q, hq, hnatural, ?_⟩
      rw [List.nil_append, append, he, extended_nil]
  | cons first before ih =>
      obtain ⟨q, hq, hnatural, he⟩ :=
        ih (c := c.extended [first]) (fun op' hop' => hbefore op' (.tail _ hop'))
      refine ⟨q, hq, hnatural, ?_⟩
      rw [List.cons_append, append, add_of_valid (hbefore first (.head _))]
      dsimp only
      rw [he, extended_extended]
      rfl

theorem ofOperations_of_valid (name : Option String) {ops : List Operation}
    (h : ∀ op ∈ ops, op.IsValid) : ofOperations name ops = .ok ⟨name, ops⟩ := by
  unfold ofOperations
  rw [append_of_valid h]
  rfl

theorem ofOperations_of_not_valid (name : Option String) {before : List Operation}
    (after : List Operation) {op : Operation} (hbefore : ∀ op ∈ before, op.IsValid)
    (hop : ¬ op.IsValid) :
    ∃ q ∈ op.qubits, ¬ Number.Natural q ∧
      ofOperations name (before ++ op :: after) = .error (.invalidQubit q) := by
  obtain ⟨q, hq, hnatural, happend⟩ :=
    append_of_not_valid (.empty name) after hbefore hop
  refine ⟨q, hq, hnatural, ?_⟩
  unfold ofOperations
  rw [happend]

theorem exists_first_invalid (ops : List Operation) :
    (∀ op ∈ ops, op.IsValid) ∨
      ∃ before op after, ops = before ++ op :: after ∧ (∀ op ∈ before, op.IsValid) ∧
        ¬ op.IsValid := by
  induction ops with
  | nil => exact .inl (List.forall_mem_nil _)
  | cons op ops ih =>
      by_cases hop : op.IsValid
      · rcases ih with hvalid | ⟨before, first, after, rfl, hbefore, hfirst⟩
        · exact .inl (List.forall_mem_cons.mpr ⟨hop, hvalid⟩)
        · exact .inr ⟨op :: before, first, after, rfl,
            List.forall_mem_cons.mpr ⟨hop, hbefore⟩, hfirst⟩
      · exact .inr ⟨[], op, ops, rfl, List.forall_mem_nil _, hop⟩

/-- What is appended, whether or not all of it is, has valid qubits. -/
theorem append_fst (c : Circuit) (ops : List Operation) :
    ∃ before, (∀ op ∈ before, op.IsValid) ∧ (c.append ops).1 = c.extended before := by
  rcases exists_first_invalid ops with hvalid | ⟨before, op, after, rfl, hbefore, hop⟩
  · exact ⟨ops, hvalid, by rw [append_of_valid hvalid]⟩
  · obtain ⟨q, -, -, happend⟩ := c.append_of_not_valid after hbefore hop
    exact ⟨before, hbefore, by rw [happend]⟩

/-- Circuits of valid operations can always be joined. -/
theorem concat_of_valid {c d : Circuit} (hc : ∀ op ∈ c.operations, op.IsValid)
    (hd : ∀ op ∈ d.operations, op.IsValid) : c.concat d = .ok (c.extended d.operations) :=
  ofOperations_of_valid c.name (List.forall_mem_append.mpr ⟨hc, hd⟩)

end Circuit

/-- A circuit of a session. It is careful if only careful ways have led to it: building operations
into it one by one, and joining careful circuits. -/
structure Session.Item where
  circuit : Circuit
  careful : Bool

/-- The circuits that a program holds, in the order in which they were made. -/
abbrev Session := List Session.Item

namespace Session

/-- What can be called. Circuits are named by their place in the session. -/
inductive Call where
  | create (name : Option String)
  | build (target : ℕ) (op : Operation)
  | add (target : ℕ) (op : Operation)
  | append (target : ℕ) (ops : List Operation)
  | join (target source : ℕ) (h : target ≠ source)
  | concat (left right : ℕ)
  | load (name : Option String) (ops : List Operation)

def change (s : Session) (target : ℕ) (f : Item → Item × Option Circuit.Error) :
    Session × Option Circuit.Error :=
  match s[target]? with
  | some item => (s.set target (f item).1, (f item).2)
  | none => (s, none)

/-- The item after a circuit was asked to change, which it stays if that fails. -/
def Item.updated (item : Item) (careful : Bool) (result : Except Circuit.Error Circuit) :
    Item × Option Circuit.Error :=
  match result with
  | .ok c => (⟨c, careful⟩, none)
  | .error e => (item, some e)

def allocate (s : Session) (careful : Bool) (result : Except Circuit.Error Circuit) :
    Session × Option Circuit.Error :=
  match result with
  | .ok c => (s ++ [⟨c, careful⟩], none)
  | .error e => (s, some e)

/-- What a call makes of a session, and the error if it fails. -/
def step (s : Session) : Call → Session × Option Circuit.Error
  | .create name => (s ++ [⟨.empty name, true⟩], none)
  | .build target op =>
      s.change target (fun item => item.updated item.careful (item.circuit.build op))
  | .add target op => s.change target (fun item => item.updated false (item.circuit.add op))
  | .append target ops =>
      s.change target (fun item => (⟨(item.circuit.append ops).1, false⟩,
        (item.circuit.append ops).2))
  | .join target source _ =>
      match s[source]? with
      | some other =>
          s.change target (fun item =>
            (⟨(item.circuit.append other.circuit.operations).1, item.careful && other.careful⟩,
              (item.circuit.append other.circuit.operations).2))
      | none => (s, none)
  | .concat left right =>
      match s[left]?, s[right]? with
      | some a, some b => s.allocate (a.careful && b.careful) (a.circuit.concat b.circuit)
      | _, _ => (s, none)
  | .load name ops => s.allocate false (Circuit.ofOperations name ops)

def after (calls : List Call) : Session :=
  calls.foldl (fun s call => (s.step call).1) []

/-- What holds of every circuit, and of careful ones. -/
structure Item.Sound (item : Item) : Prop where
  valid : ∀ op ∈ item.circuit.operations, op.IsValid
  careful : item.careful = true → ∀ op ∈ item.circuit.operations, op.IsCareful

theorem Item.Sound.extended {item : Item} (h : item.Sound) {ops : List Operation} {careful : Bool}
    (hvalid : ∀ op ∈ ops, op.IsValid)
    (hcareful : careful = true → item.careful = true ∧ ∀ op ∈ ops, op.IsCareful) :
    Item.Sound ⟨item.circuit.extended ops, careful⟩ where
  valid := List.forall_mem_append.mpr ⟨h.valid, hvalid⟩
  careful hmark :=
    List.forall_mem_append.mpr ⟨h.careful (hcareful hmark).1, (hcareful hmark).2⟩

theorem Item.Sound.joined {item other : Item} (h : item.Sound) (hother : other.Sound) :
    Item.Sound ⟨item.circuit.extended other.circuit.operations, item.careful && other.careful⟩ := by
  refine h.extended hother.valid (fun hmark => ?_)
  rw [Bool.and_eq_true] at hmark
  exact ⟨hmark.1, hother.careful hmark.2⟩

theorem Item.Sound.updated {item : Item} (h : item.Sound) {careful : Bool}
    {result : Except Circuit.Error Circuit}
    (hresult : ∀ c, result = .ok c → Item.Sound ⟨c, careful⟩) :
    (item.updated careful result).1.Sound := by
  cases result with
  | ok c => exact hresult c rfl
  | error e => exact h

variable {s : Session}

theorem sound_change (h : ∀ item ∈ s, item.Sound) {target : ℕ}
    {f : Item → Item × Option Circuit.Error} (hf : ∀ item ∈ s, (f item).1.Sound) :
    ∀ item ∈ (s.change target f).1, item.Sound := by
  unfold change
  split
  next item hitem =>
    intro other hother
    rcases List.mem_or_eq_of_mem_set hother with hold | rfl
    · exact h other hold
    · exact hf item (List.mem_of_getElem? hitem)
  next => exact h

theorem sound_allocate (h : ∀ item ∈ s, item.Sound) {careful : Bool}
    {result : Except Circuit.Error Circuit}
    (hresult : ∀ c, result = .ok c → Item.Sound ⟨c, careful⟩) :
    ∀ item ∈ (s.allocate careful result).1, item.Sound := by
  cases result with
  | ok c => exact List.forall_mem_append.mpr ⟨h, List.forall_mem_singleton.mpr (hresult c rfl)⟩
  | error e => exact h

theorem sound_build (h : ∀ item ∈ s, item.Sound) (target : ℕ) (op : Operation) :
    ∀ item ∈ (s.step (.build target op)).1, item.Sound := by
  refine sound_change h (fun item hitem => (h item hitem).updated (fun c hc => ?_))
  obtain ⟨hadmits, rfl⟩ := Circuit.build_eq_ok_iff.mp hc
  exact (h item hitem).extended (List.forall_mem_singleton.mpr hadmits.1)
    (fun hmark => ⟨hmark, List.forall_mem_singleton.mpr hadmits.2.1⟩)

theorem sound_add (h : ∀ item ∈ s, item.Sound) (target : ℕ) (op : Operation) :
    ∀ item ∈ (s.step (.add target op)).1, item.Sound := by
  refine sound_change h (fun item hitem => (h item hitem).updated (fun c hc => ?_))
  obtain ⟨hvalid, rfl⟩ := Circuit.add_eq_ok_iff.mp hc
  exact (h item hitem).extended (List.forall_mem_singleton.mpr hvalid)
    (fun hmark => by cases hmark)

theorem sound_append (h : ∀ item ∈ s, item.Sound) (target : ℕ) (ops : List Operation) :
    ∀ item ∈ (s.step (.append target ops)).1, item.Sound := by
  refine sound_change h (fun item hitem => ?_)
  obtain ⟨before, hbefore, happend⟩ := Circuit.append_fst item.circuit ops
  rw [happend]
  exact (h item hitem).extended hbefore (fun hmark => by cases hmark)

theorem sound_join (h : ∀ item ∈ s, item.Sound) {target source : ℕ} (hne : target ≠ source) :
    ∀ item ∈ (s.step (.join target source hne)).1, item.Sound := by
  unfold step
  dsimp only
  split
  next other hother =>
    have hsource := h other (List.mem_of_getElem? hother)
    refine sound_change h (fun item hitem => ?_)
    rw [Circuit.append_of_valid hsource.valid]
    exact (h item hitem).joined hsource
  next => exact h

theorem sound_concat (h : ∀ item ∈ s, item.Sound) (left right : ℕ) :
    ∀ item ∈ (s.step (.concat left right)).1, item.Sound := by
  unfold step
  dsimp only
  split
  next a b ha hb =>
    have hleft := h a (List.mem_of_getElem? ha)
    have hright := h b (List.mem_of_getElem? hb)
    refine sound_allocate h (fun c hc => ?_)
    rw [Circuit.concat_of_valid hleft.valid hright.valid] at hc
    cases hc
    exact hleft.joined hright
  next => exact h

theorem sound_load (h : ∀ item ∈ s, item.Sound) (name : Option String) (ops : List Operation) :
    ∀ item ∈ (s.step (.load name ops)).1, item.Sound := by
  refine sound_allocate h (fun c hc => ?_)
  rcases Circuit.exists_first_invalid ops with hvalid | ⟨before, op, after, rfl, hbefore, hop⟩
  · rw [Circuit.ofOperations_of_valid name hvalid] at hc
    cases hc
    exact ⟨hvalid, fun hmark => by cases hmark⟩
  · obtain ⟨q, -, -, herror⟩ := Circuit.ofOperations_of_not_valid name after hbefore hop
    rw [herror] at hc
    cases hc

/-- Every call keeps what holds of circuits. -/
theorem sound_step (h : ∀ item ∈ s, item.Sound) (call : Call) :
    ∀ item ∈ (s.step call).1, item.Sound := by
  cases call with
  | create name =>
      refine List.forall_mem_append.mpr ⟨h, List.forall_mem_singleton.mpr ⟨?_, fun _ => ?_⟩⟩
      · exact List.forall_mem_nil _
      · exact List.forall_mem_nil _
  | build target op => exact sound_build h target op
  | add target op => exact sound_add h target op
  | append target ops => exact sound_append h target ops
  | join target source hne => exact sound_join h hne
  | concat left right => exact sound_concat h left right
  | load name ops => exact sound_load h name ops

theorem sound_after (calls : List Call) : ∀ item ∈ after calls, item.Sound := by
  induction calls using List.reverseRecOn with
  | nil => exact List.forall_mem_nil _
  | append_singleton calls call ih =>
      unfold after at ih ⊢
      rw [List.foldl_append]
      exact sound_step ih call

/-- How calls work on a session: what succeeds and what it changes, and what is left where a call
fails. -/
structure Behaves (s : Session) : Prop where
  built : ∀ {target op item}, s[target]? = some item → item.circuit.Admits op →
    s.step (.build target op) =
      (s.set target ⟨item.circuit.extended [op], item.careful⟩, none)
  not_built : ∀ {target op item}, s[target]? = some item → ¬ item.circuit.Admits op →
    ∃ e, s.step (.build target op) = (s, some e)
  added : ∀ {target op item}, s[target]? = some item → op.IsValid →
    s.step (.add target op) = (s.set target ⟨item.circuit.extended [op], false⟩, none)
  not_added : ∀ {target op item}, s[target]? = some item → ¬ op.IsValid →
    ∃ q ∈ op.qubits, ¬ Number.Natural q ∧
      s.step (.add target op) = (s, some (.invalidQubit q))
  appended : ∀ {target ops item}, s[target]? = some item → (∀ op ∈ ops, op.IsValid) →
    s.step (.append target ops) = (s.set target ⟨item.circuit.extended ops, false⟩, none)
  not_appended : ∀ {target before op after item}, s[target]? = some item →
    (∀ op ∈ before, op.IsValid) → ¬ op.IsValid →
    ∃ q ∈ op.qubits, ¬ Number.Natural q ∧
      s.step (.append target (before ++ op :: after)) =
        (s.set target ⟨item.circuit.extended before, false⟩, some (.invalidQubit q))
  joined : ∀ {target source item other} (h : target ≠ source), s[target]? = some item →
    s[source]? = some other →
    s.step (.join target source h) =
      (s.set target ⟨item.circuit.extended other.circuit.operations,
        item.careful && other.careful⟩, none)
  concatenated : ∀ {left right a b}, s[left]? = some a → s[right]? = some b →
    s.step (.concat left right) =
      (s ++ [⟨⟨a.circuit.name, a.circuit.operations ++ b.circuit.operations⟩,
        a.careful && b.careful⟩], none)
  loaded : ∀ {name ops}, (∀ op ∈ ops, op.IsValid) →
    s.step (.load name ops) = (s ++ [⟨⟨name, ops⟩, false⟩], none)
  not_loaded : ∀ {name before op after}, (∀ op ∈ before, op.IsValid) → ¬ op.IsValid →
    ∃ q ∈ op.qubits, ¬ Number.Natural q ∧
      s.step (.load name (before ++ op :: after)) = (s, some (.invalidQubit q))

theorem change_eq {target : ℕ} {item : Item} (h : s[target]? = some item)
    (f : Item → Item × Option Circuit.Error) :
    s.change target f = (s.set target (f item).1, (f item).2) := by
  unfold change
  rw [h]

theorem set_self {target : ℕ} {item : Item} (h : s[target]? = some item) :
    s.set target item = s := by
  obtain ⟨hlt, rfl⟩ := List.getElem?_eq_some_iff.mp h
  exact List.set_getElem_self hlt

theorem change_of_error {target : ℕ} {item : Item} (h : s[target]? = some item)
    {f : Item → Item × Option Circuit.Error} {e : Circuit.Error} (hf : f item = (item, some e)) :
    s.change target f = (s, some e) := by
  rw [change_eq h, hf, set_self h]

theorem behaves_of_sound (h : ∀ item ∈ s, item.Sound) : Behaves s where
  built hitem hadmits := by
    unfold step
    dsimp only
    rw [change_eq hitem, Circuit.build_of_admits hadmits]
    rfl
  not_built hitem hadmits := by
    obtain ⟨e, he⟩ := Circuit.build_of_not_admits hadmits
    exact ⟨e, change_of_error hitem (by rw [he, Item.updated])⟩
  added hitem hvalid := by
    unfold step
    dsimp only
    rw [change_eq hitem, Circuit.add_of_valid hvalid]
    rfl
  not_added {_ _ item} hitem hvalid := by
    obtain ⟨q, hq, hnatural, he⟩ := item.circuit.add_of_not_valid hvalid
    exact ⟨q, hq, hnatural, change_of_error hitem (by rw [he, Item.updated])⟩
  appended hitem hvalid := by
    unfold step
    dsimp only
    rw [change_eq hitem, Circuit.append_of_valid hvalid]
  not_appended {_ _ _ after item} hitem hbefore hop := by
    obtain ⟨q, hq, hnatural, he⟩ := item.circuit.append_of_not_valid after hbefore hop
    refine ⟨q, hq, hnatural, ?_⟩
    unfold step
    dsimp only
    rw [change_eq hitem, he]
  joined {_ _ _ other} hne hitem hother := by
    unfold step
    dsimp only
    rw [hother]
    dsimp only
    rw [change_eq hitem, Circuit.append_of_valid (h other (List.mem_of_getElem? hother)).valid]
  concatenated {_ _ a b} ha hb := by
    unfold step
    dsimp only
    rw [ha, hb]
    dsimp only
    rw [Circuit.concat_of_valid (h a (List.mem_of_getElem? ha)).valid
      (h b (List.mem_of_getElem? hb)).valid]
    rfl
  loaded {name _} hvalid := by
    unfold step
    dsimp only
    rw [Circuit.ofOperations_of_valid name hvalid]
    rfl
  not_loaded {name _ _ after} hbefore hop := by
    obtain ⟨q, hq, hnatural, he⟩ := Circuit.ofOperations_of_not_valid name after hbefore hop
    refine ⟨q, hq, hnatural, ?_⟩
    unfold step
    dsimp only
    rw [he]
    rfl

/-- Whatever was called before: the circuits are sound, careful ones are careful, and the next call
does what it should. -/
theorem after_sound_and_behaves (calls : List Call) :
    (∀ item ∈ after calls,
      (∀ op ∈ item.circuit.operations, ∀ q ∈ op.qubits, Number.Natural q) ∧
      (item.careful = true → ∀ op ∈ item.circuit.operations, op.IsCareful)) ∧
    Behaves (after calls) := by
  have hsound := sound_after calls
  exact ⟨fun item hitem => ⟨(hsound item hitem).valid, (hsound item hitem).careful⟩,
    behaves_of_sound hsound⟩

end Session

end OpenQasm

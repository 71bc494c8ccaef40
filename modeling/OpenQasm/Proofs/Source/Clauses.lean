import OpenQasm.Proofs.Source.Spelling

/-!
# What statements declare and measure

A statement may declare a register of qubits or of bits, measure one qubit into one bit, or measure
a whole register into another. `Clause.ofText` reads this off the text of a statement, with every
number as the natural number that its digits spell, however long they are. The reader itself works
with the number next to it.
-/
namespace OpenQasm.Source

open OpenQasm.Text

def bracketed (cs : List Char) : ℕ :=
  Decimal.ofDigits ((cs.dropWhile (· != '[')).filter Char.isDigit)

theorem bracketed_append {s : List Char} (hs : ∀ c ∈ s, c ≠ '[') (t : List Char) :
    bracketed (s ++ t) = bracketed t := by
  unfold bracketed
  rw [List.dropWhile_append_of_pos (by simpa using hs)]

theorem IsElement.bracketed_eq {cs : List Char} {name : String} {n : ℕ} (h : IsElement cs name n) :
    bracketed cs = n := by
  obtain ⟨hname, h₁, h₂, hne, hdigits, h₃⟩ := h
  have hblank {b : List Char} (hb : ∀ c ∈ b, isBlank c = true) : b.filter Char.isDigit = [] := by
    rw [List.filter_eq_nil_iff]
    intro c hc hdigit
    have := hb c hc
    rw [isBlank_of_isDigit hdigit] at this
    cases this
  have hfilter := List.filter_eq_self.mpr hdigits
  rw [bracketed_append, bracketed_append, bracketed, List.dropWhile_cons_of_neg (by simp)]
  · simp only [List.filter_cons, List.filter_append, hblank h₂, hfilter, hblank h₃]
    simp
  · rintro c hc rfl
    exact absurd (h₁ _ hc) (by decide)
  · rintro c hc rfl
    exact absurd (isName_chars hname _ hc) (by decide)

def element? (cs : List Char) : Option (String × ℕ) :=
  (indexed? cs).map (fun e => (e.1, bracketed cs))

theorem element?_eq_some_iff {cs : List Char} {e : String × ℕ} :
    element? cs = some e ↔ IsElement cs e.1 e.2 := by
  constructor
  · intro h
    obtain ⟨⟨name, x⟩, hindexed, rfl⟩ := Option.map_eq_some_iff.mp h
    obtain ⟨n, helement, -⟩ := isElement_of_indexed? hindexed
    rwa [helement.bracketed_eq]
  · intro h
    rw [element?, h.indexed?_eq, Option.map_some, h.bracketed_eq]

theorem indexed?_eq_map (cs : List Char) :
    indexed? cs = (element? cs).map (fun e => (e.1, Float.ofNat e.2)) := by
  cases h : indexed? cs with
  | none => rw [element?, h]; rfl
  | some e =>
      obtain ⟨n, helement, hx⟩ := isElement_of_indexed? h
      rw [element?, h, Option.map_some, Option.map_some, helement.bracketed_eq, ← hx]

/-- What a statement declares or measures. -/
inductive Clause where
  | register (isQubit : Bool) (name : String) (size : ℕ)
  | single (qubit bit : String × ℕ)
  | whole (source target : String)
  | other
  deriving DecidableEq, Repr

/-- The register that a clause declares, if it is one of qubits, or of bits. -/
def Clause.register? (isQubit : Bool) : Clause → Option (String × ℕ)
  | register sort name size => if sort = isQubit then some (name, size) else none
  | _ => none

def registers (isQubit : Bool) (clauses : List Clause) : List (String × ℕ) :=
  clauses.filterMap (Clause.register? isQubit)

theorem registers_append (isQubit : Bool) (clauses clauses' : List Clause) :
    registers isQubit (clauses ++ clauses') =
      registers isQubit clauses ++ registers isQubit clauses' :=
  List.filterMap_append

theorem registers_concat (isQubit : Bool) (clauses : List Clause) (clause : Clause) :
    registers isQubit (clauses ++ [clause]) =
      registers isQubit clauses ++ (clause.register? isQubit).toList := by
  rw [registers_append]
  cases h : clause.register? isQubit <;> simp [registers, h]

def Clause.ofSides (source target : List Char) : Clause :=
  match element? source, element? target with
  | some qubit, some bit => .single qubit bit
  | _, _ =>
      if isName source && isName target then .whole (String.ofList source) (String.ofList target)
      else .other

/-- The clause that a statement's text spells. -/
def Clause.ofText (cs : List Char) : Clause :=
  match Command.ofText cs with
  | .declare isQubit name _ => .register isQubit name (bracketed cs)
  | .measure source target => .ofSides source target
  | _ => .other

/-- The two sides of a measurement: an element each, or a name each. -/
inductive Sides : List Char → List Char → Clause → Prop
  | single {source target : List Char} {qubit bit : String × ℕ}
      (hsource : IsElement source qubit.1 qubit.2) (htarget : IsElement target bit.1 bit.2) :
      Sides source target (.single qubit bit)
  | whole {source target : String} (hsource : isName source.toList = true)
      (htarget : isName target.toList = true) :
      Sides source.toList target.toList (.whole source target)

/-- The texts that spell a clause: blanks follow the first word, and may stand around the arrow. -/
inductive Spells : List Char → Clause → Prop
  | register {isQubit : Bool} {name : String} {size : ℕ} {b cs : List Char} (hne : b ≠ [])
      (hb : ∀ c ∈ b, isBlank c = true) (h : IsElement cs name size) :
      Spells ((keyword isQubit).toList ++ (b ++ cs)) (.register isQubit name size)
  | measure {clause : Clause} {b source b₁ b₂ target : List Char} (hne : b ≠ [])
      (hb : ∀ c ∈ b, isBlank c = true) (h₁ : ∀ c ∈ b₁, isBlank c = true)
      (h₂ : ∀ c ∈ b₂, isBlank c = true) (h : Sides source target clause) :
      Spells ("measure".toList ++ (b ++ (source ++ (b₁ ++ '-' :: '>' :: (b₂ ++ target))))) clause

theorem Sides.isSide {source target : List Char} {clause : Clause}
    (h : Sides source target clause) : IsSide source ∧ IsSide target := by
  cases h with
  | single hsource htarget => exact ⟨hsource.isSide, htarget.isSide⟩
  | whole hsource htarget => exact ⟨isSide_name hsource, isSide_name htarget⟩

theorem element?_of_isName {cs : List Char} (h : isName cs = true) : element? cs = none := by
  rw [Option.eq_none_iff_forall_ne_some]
  rintro ⟨name, n⟩ he
  have hmem : '[' ∈ cs := by
    obtain ⟨hname, -, -, -, -, -⟩ := element?_eq_some_iff.mp he
    simp
  exact absurd (isName_chars h _ hmem) (by decide)

theorem ofSides_eq_iff {source target : List Char} {clause : Clause} (hc : clause ≠ .other) :
    Clause.ofSides source target = clause ↔ Sides source target clause := by
  constructor
  · rintro rfl
    unfold Clause.ofSides at hc ⊢
    split at hc
    next qubit bit hsource htarget =>
      exact .single (element?_eq_some_iff.mp hsource) (element?_eq_some_iff.mp htarget)
    next =>
      split_ifs at hc ⊢ with hnames
      · rw [Bool.and_eq_true] at hnames
        have hside := @Sides.whole (String.ofList source) (String.ofList target)
        rw [String.toList_ofList, String.toList_ofList] at hside
        exact hside hnames.1 hnames.2
      · exact absurd rfl hc
  · intro h
    cases h with
    | single hsource htarget =>
        rw [Clause.ofSides, element?_eq_some_iff.mpr hsource, element?_eq_some_iff.mpr htarget]
    | whole hsource htarget =>
        rw [Clause.ofSides, element?_of_isName hsource, hsource, htarget, String.ofList_toList,
          String.ofList_toList]
        rfl

theorem bracketed_register {isQubit : Bool} {b cs : List Char} {name : String} {n : ℕ}
    (hb : ∀ c ∈ b, isBlank c = true) (h : IsElement cs name n) :
    bracketed ((keyword isQubit).toList ++ (b ++ cs)) = n := by
  rw [bracketed_append, bracketed_append, h.bracketed_eq]
  · rintro c hc rfl
    exact absurd (hb _ hc) (by decide)
  · have hnone : ∀ isQubit, '[' ∉ (keyword isQubit).toList := by decide
    rintro c hc rfl
    exact hnone isQubit hc

theorem Spells.ofText_eq {cs : List Char} {clause : Clause} (h : Spells cs clause)
    (hc : clause ≠ .other) : Clause.ofText cs = clause := by
  cases h with
  | @register isQubit name size b cs hne hb h =>
      rw [Clause.ofText, ofText_declaration isQubit hne hb h]
      exact congrArg _ (bracketed_register hb h)
  | measure hne hb h₁ h₂ h =>
      obtain ⟨hsource, htarget⟩ := h.isSide
      rw [Clause.ofText, ofText_measurement hne hb h₁ h₂ hsource htarget.ne_nil htarget.head]
      exact (ofSides_eq_iff hc).mpr h

theorem spells_of_declare {cs : List Char} {isQubit : Bool} {name : String} {size : Float}
    (h : Command.ofText cs = .declare isQubit name size) :
    ∃ n, Spells cs (.register isQubit name n) ∧ size = Float.ofNat n := by
  obtain ⟨b, rest, n, hne, hb, helement, hsize, rfl⟩ := exists_of_ofText_declare h
  exact ⟨n, .register hne hb helement, hsize⟩

/-- A statement is read as the clause that its text spells. -/
theorem ofText_eq_iff_spells {cs : List Char} {clause : Clause} (hc : clause ≠ .other) :
    Clause.ofText cs = clause ↔ Spells cs clause := by
  constructor
  · rintro rfl
    cases hcommand : Command.ofText cs with
    | declare isQubit name size =>
        obtain ⟨n, hspells, -⟩ := spells_of_declare hcommand
        rwa [hspells.ofText_eq (by simp)]
    | measure source target =>
        have hclause : Clause.ofText cs = .ofSides source target := by
          rw [Clause.ofText, hcommand]
        obtain ⟨b, b₁, b₂, hne, hb, h₁, h₂, hcs⟩ := exists_of_ofText_measure hcommand
        rw [hclause] at hc ⊢
        rw [hcs]
        exact .measure hne hb h₁ h₂ ((ofSides_eq_iff hc).mp rfl)
    | _ => exact absurd (by rw [Clause.ofText, hcommand]) hc
  · intro h
    exact h.ofText_eq hc

end OpenQasm.Source

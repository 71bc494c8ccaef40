import OpenQasm.Proofs.Expr.Evaluation

/-!
# What an evaluation depends on

A name with an opening bracket after it is that of a function; any other is a variable. Two
calculators that set the same variables of a text take it through the same steps of reading: they
find the same fault, or the same expression. If the variables have the same values too, then so has
the expression. Nothing else that a calculator holds has an influence.
-/
namespace OpenQasm.Expr

/-- The variables among tokens: the names with no opening bracket after them. -/
def freeNames : List Token → List String
  | [] => []
  | .name _ :: .symbol .opening :: rest => freeNames rest
  | .name n :: rest => n :: freeNames rest
  | _ :: rest => freeNames rest

theorem freeNames_name {n : String} {rest : List Token}
    (h : rest.head? ≠ some (.symbol .opening)) :
    freeNames (.name n :: rest) = n :: freeNames rest := by
  rw [freeNames]
  rintro rest' rfl
  exact h rfl

theorem freeNames_call (f : String) (rest : List Token) :
    freeNames (.name f :: .symbol .opening :: rest) = freeNames rest := by
  rw [freeNames]

theorem freeNames_number (x : Float) (rest : List Token) :
    freeNames (.number x :: rest) = freeNames rest := by
  rw [freeNames] <;> simp

theorem freeNames_symbol (s : Symbol) (rest : List Token) :
    freeNames (.symbol s :: rest) = freeNames rest := by
  rw [freeNames] <;> simp

/-- Before tokens that open no bracket, tokens keep their variables. -/
theorem freeNames_append (ts : List Token) {rest : List Token}
    (h : rest.head? ≠ some (.symbol .opening)) :
    freeNames (ts ++ rest) = freeNames ts ++ freeNames rest := by
  fun_induction freeNames ts with
  | case1 => rfl
  | case2 f ts ih =>
      rw [List.cons_append, List.cons_append, freeNames_call, ih]
  | case3 n ts hcall ih =>
      have hhead : (ts ++ rest).head? ≠ some (.symbol .opening) := by
        cases ts with
        | nil => exact h
        | cons token ts =>
            rintro heq
            cases heq
            exact hcall ts rfl
      rw [List.cons_append, freeNames_name hhead, ih, List.cons_append]
  | case4 token ts hcall hname ih =>
      cases token with
      | number x => rw [List.cons_append, freeNames_number, ih]
      | name n => exact absurd rfl (hname n)
      | symbol s => rw [List.cons_append, freeNames_symbol, ih]

/-- Two tests tell the same of the variables among tokens. -/
def Agree (defined defined' : String → Bool) (ts : List Token) : Prop :=
  ∀ n ∈ freeNames ts, defined n = defined' n

/-- Up to `n` tokens are read the same where an operand is to come. -/
def SameOperand (defined defined' : String → Bool) (n : ℕ) : Prop :=
  ∀ (frames : List Frame) (ts : List Token), ts.length ≤ n → Agree defined defined' ts →
    operand defined frames ts = operand defined' frames ts

/-- Up to `n` tokens are read the same after an operand. -/
def SameAfter (defined defined' : String → Bool) (n : ℕ) : Prop :=
  ∀ (frames : List Frame) (e : Expr) (ts : List Token), ts.length ≤ n →
    Agree defined defined' ts → afterOperand defined frames e ts = afterOperand defined' frames e ts

section

variable {defined defined' : String → Bool} {n : ℕ}

theorem sameOperand_succ (ho : SameOperand defined defined' n)
    (ha : SameAfter defined defined' n) : SameOperand defined defined' (n + 1) := by
  intro frames ts hlen h
  unfold Agree at h
  cases ts with
  | nil => rw [operand, operand]
  | cons token rest =>
      have hrest : rest.length ≤ n := Nat.le_of_succ_le_succ hlen
      cases token with
      | number x =>
          rw [freeNames_number] at h
          rw [operand, operand, ha frames _ rest hrest h]
      | name m =>
          by_cases hopen : rest.head? = some (.symbol .opening)
          · obtain ⟨rest, rfl⟩ := List.head?_eq_some_iff.mp hopen
            rw [freeNames_call] at h
            rw [operand, operand]
            cases Func.ofName? m with
            | none => rfl
            | some f => exact ho _ rest (Nat.le_of_succ_le (by simpa using hrest)) h
          · rw [freeNames_name hopen] at h
            rw [operand_name hopen, operand_name hopen, h m (.head _),
              ha frames _ rest hrest (fun m' hm' => h m' (.tail _ hm'))]
      | symbol symbol =>
          rw [freeNames_symbol] at h
          cases symbol with
          | minus => rw [operand, operand, ho _ rest hrest h]
          | plus => rw [operand, operand, ho _ rest hrest h]
          | opening => rw [operand, operand, ho _ rest hrest h]
          | _ => simp [operand]

theorem sameAfter_succ (ho : SameOperand defined defined' n)
    (ha : SameAfter defined defined' n) : SameAfter defined defined' (n + 1) := by
  intro frames e ts hlen h
  cases ts with
  | nil => rw [afterOperand, afterOperand]
  | cons token rest =>
      have hrest : rest.length ≤ n := Nat.le_of_succ_le_succ hlen
      cases token with
      | number x => simp only [afterOperand]
      | name m => simp only [afterOperand]
      | symbol symbol =>
          have h : Agree defined defined' rest := by
            unfold Agree at h
            rwa [freeNames_symbol] at h
          cases hop : symbol.operator? with
          | some op =>
              rw [afterOperand_operator _ _ _ hop, afterOperand_operator _ _ _ hop,
                ho _ rest hrest h]
          | none =>
              cases symbol with
              | closing =>
                  simp only [afterOperand]
                  split
                  · exact ha _ _ rest hrest h
                  · rfl
              | comma =>
                  simp only [afterOperand]
                  split
                  · exact ho _ rest hrest h
                  · rfl
                  · rfl
              | opening => simp only [afterOperand, Symbol.operator?]
              | _ => cases hop

/-- Reading asks for nothing but the variables. -/
theorem sameReading (defined defined' : String → Bool) (n : ℕ) :
    SameOperand defined defined' n ∧ SameAfter defined defined' n := by
  induction n with
  | zero =>
      refine ⟨fun frames ts hlen _ => ?_, fun frames e ts hlen _ => ?_⟩
      · rw [List.length_eq_zero_iff.mp (Nat.le_zero.mp hlen), operand, operand]
      · rw [List.length_eq_zero_iff.mp (Nat.le_zero.mp hlen), afterOperand, afterOperand]
  | succ n ih => exact ⟨sameOperand_succ ih.1 ih.2, sameAfter_succ ih.1 ih.2⟩

end

theorem ofTokens_congr {defined defined' : String → Bool} {ts : List Token}
    (h : Agree defined defined' ts) : ofTokens defined ts = ofTokens defined' ts := by
  unfold ofTokens
  rw [(sameReading defined defined' ts.length).1 [] ts le_rfl h]

theorem freeNames_between (ts ts' : List Token) {s : Symbol} (h : s ≠ .opening) :
    freeNames (ts ++ .symbol s :: ts') = freeNames ts ++ freeNames ts' := by
  rw [freeNames_append ts (by simpa using h), freeNames_symbol]

theorem Tree.value_congr {names names' : String → Float} {k : Phrase} (t : Tree k)
    (h : ∀ n ∈ freeNames t.tokens, names n = names' n) : t.value names = t.value names' := by
  -- the parts on both sides of a symbol that opens no bracket have their variables apart
  have hparts {ts ts' : List Token} {s : Symbol} (hs : s ≠ .opening)
      (h : ∀ n ∈ freeNames (ts ++ .symbol s :: ts'), names n = names' n) :
      (∀ n ∈ freeNames ts, names n = names' n) ∧ ∀ n ∈ freeNames ts', names n = names' n := by
    rw [freeNames_between ts ts' hs] at h
    exact List.forall_mem_append.mp h
  induction t with
  | term t ih => exact ih h
  | sum left op right ihl ihr =>
      obtain ⟨hl, hr⟩ := hparts (by cases op <;> decide) h
      exact congrArg₂ op.operator.apply (ihl hl) (ihr hr)
  | unary u ih => exact ih h
  | product left op right ihl ihr =>
      obtain ⟨hl, hr⟩ := hparts (by cases op <;> decide) h
      exact congrArg₂ op.operator.apply (ihl hl) (ihr hr)
  | signed sign u ih =>
      rw [tokens, freeNames_symbol] at h
      cases sign with
      | plus => exact ih h
      | minus => exact congrArg (fun x : Float => -x) (ih h)
  | unsigned p ih => exact ih h
  | primary p ih => exact ih h
  | raised base exponent ihb ihe =>
      obtain ⟨hb, he⟩ := hparts (by decide) h
      exact congrArg₂ BinaryOp.pow.apply (ihb hb) (ihe he)
  | number x => rfl
  | name n => exact h n (.head _)
  | call f args ih =>
      rw [tokens, freeNames_call] at h
      exact congrArg (functionOf f).apply (ih (hparts (by decide) h).1)
  | group e ih =>
      rw [tokens, freeNames_symbol] at h
      exact ih (hparts (by decide) h).1
  | one e ih => exact congrArg (fun x => [x]) (ih h)
  | more args e iha ihe =>
      obtain ⟨ha, he⟩ := hparts (by decide) h
      exact congrArg₂ (fun xs x => xs ++ [x]) (iha ha) (ihe he)

/-- The variables of a text; one that is not cut into tokens has none. -/
def freeNamesOf (text : String) : List String :=
  match lex text.toList with
  | .ok ts => freeNames ts
  | .error _ => []

theorem parse_congr {text : String} {defined defined' : String → Bool}
    (h : ∀ n ∈ freeNamesOf text, defined n = defined' n) :
    parse defined text.toList = parse defined' text.toList := by
  unfold freeNamesOf at h
  unfold parse tokens
  cases hlex : lex text.toList with
  | error stray => rfl
  | ok ts =>
      rw [hlex] at h
      exact ofTokens_congr h

theorem eval_congr {text : String} {defined : String → Bool} {e : Expr}
    (hparse : parse defined text.toList = .ok e) {names names' : String → Float}
    (h : ∀ n ∈ freeNamesOf text, names n = names' n) : e.eval names = e.eval names' := by
  unfold freeNamesOf at h
  unfold parse tokens at hparse
  cases hlex : lex text.toList with
  | error stray =>
      rw [hlex] at hparse
      cases hparse
  | ok ts =>
      rw [hlex] at h hparse
      obtain ⟨-, t, rfl, rfl⟩ := ofTokens_iff.mp hparse
      calc eval names t.toExpr = t.value names := t.evalResult_toExpr names
        _ = t.value names' := t.value_congr h
        _ = eval names' t.toExpr := (t.evalResult_toExpr names').symm

end OpenQasm.Expr

namespace OpenQasm.Calculator

open OpenQasm.Expr

variable {c c' : Calculator} {n : String}

theorem isDefined_congr (h : c.has n = c'.has n) : c.isDefined n = c'.isDefined n := by
  rw [Bool.eq_iff_iff, isDefined_iff, isDefined_iff, h]

theorem get?_of_get (h : c.get n = c'.get n) : c.values.get? n = c'.values.get? n := by
  unfold get at h
  cases hv : c.values.get? n <;> cases hv' : c'.values.get? n <;> simp_all

theorem has_of_get (h : c.get n = c'.get n) : c.has n = c'.has n := by
  unfold has Table.contains
  rw [get?_of_get h]

theorem valuation_congr (h : c.get n = c'.get n) : c.valuation n = c'.valuation n := by
  unfold valuation lookup?
  rw [get?_of_get h]

theorem get_set_of_ne (x : Float) {m : String} (h : n ≠ m) : (c.set m x).get n = c.get n := by
  unfold get set
  rw [Table.get?_insert_of_ne _ _ h]

theorem evaluate_expression_congr {text : String} (h : ∀ n ∈ freeNamesOf text, c.get n = c'.get n) :
    c.evaluate (.expression text) = c'.evaluate (.expression text) := by
  have hparse := parse_congr (fun n hn => isDefined_congr (has_of_get (h n hn)))
  unfold evaluate
  dsimp only
  rw [← hparse]
  cases he : Expr.parse c.isDefined text.toList with
  | error fault => rfl
  | ok e =>
      dsimp only
      rw [eval_congr he (fun n hn => valuation_congr (h n hn))]

/-- An evaluation depends on the variables of the text alone, and only the number that it returns
depends on their values. Two calculators that set the same of them both succeed, or both fail with
the same error. If the values agree as well, then so do the numbers. What is set under a name that
does not occur, or occurs only as that of a function, has no influence. -/
theorem evaluate_dependence {text : String}
    (h : ∀ n ∈ freeNamesOf text, c.has n = c'.has n) :
    ((∃ x, c.evaluate (.expression text) = .ok x) ↔
      ∃ x, c'.evaluate (.expression text) = .ok x) ∧
    (∀ error, c.evaluate (.expression text) = .error error ↔
      c'.evaluate (.expression text) = .error error) ∧
    ((∀ n ∈ freeNamesOf text, c.get n = c'.get n) →
      c.evaluate (.expression text) = c'.evaluate (.expression text)) ∧
    ∀ m x, m ∉ freeNamesOf text →
      (c.set m x).evaluate (.expression text) = c.evaluate (.expression text) := by
  have hparse := parse_congr (fun n hn => isDefined_congr (h n hn))
  refine ⟨?_, ?_, evaluate_expression_congr, fun m x hm => ?_⟩
  · unfold evaluate
    dsimp only
    rw [← hparse]
    cases Expr.parse c.isDefined text.toList <;> simp
  · intro error
    unfold evaluate
    dsimp only
    rw [← hparse]
    cases Expr.parse c.isDefined text.toList <;> simp
  · refine evaluate_expression_congr (fun n hn => get_set_of_ne x ?_)
    rintro rfl
    exact hm hn

/-- In `max (x, 1) - max` the name of a function is that of a variable too. Both calculators set it;
what else they set differs. -/
theorem evaluate_dependence_sharedName :
    freeNamesOf "max (x, 1) - max" = ["x", "max"] ∧
      (∀ n ∈ freeNamesOf "max (x, 1) - max",
        (ofList [("x", 3), ("max", 5), ("y", 1)]).has n =
          (ofList [("max", 2), ("sin", 0), ("x", 8)]).has n) ∧
      (ofList [("x", 3), ("max", 5), ("y", 1)]).evaluate (.expression "max (x, 1) - max") =
        .ok (-2) ∧
      (∃ x, (ofList [("max", 2), ("sin", 0), ("x", 8)]).evaluate
        (.expression "max (x, 1) - max") = .ok x) ∧
      ((ofList [("x", 3), ("max", 5), ("y", 1)]).set "y" 7).evaluate
        (.expression "max (x, 1) - max") = .ok (-2) := by
  have hnames : freeNamesOf "max (x, 1) - max" = ["x", "max"] := by decide +kernel
  have hset : ∀ n ∈ freeNamesOf "max (x, 1) - max",
      (ofList [("x", 3), ("max", 5), ("y", 1)]).has n =
        (ofList [("max", 2), ("sin", 0), ("x", 8)]).has n := by
    rw [hnames]
    decide
  have hvalue : (ofList [("x", 3), ("max", 5), ("y", 1)]).evaluate
      (.expression "max (x, 1) - max") = .ok (-2) := by decide +kernel
  obtain ⟨hok, -, -, hother⟩ := evaluate_dependence hset
  refine ⟨hnames, hset, hvalue, hok.mp ⟨_, hvalue⟩, ?_⟩
  rw [hother "y" 7 (by rw [hnames]; decide), hvalue]

end OpenQasm.Calculator

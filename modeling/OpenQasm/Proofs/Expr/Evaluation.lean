import OpenQasm.Parameter
import OpenQasm.Proofs.Expr.Grammar

/-!
# Evaluation follows the grammar

The reader of expressions keeps frames where `State.run` keeps a context, so it succeeds on the
same tokens, as long as their names are known, and the expression it returns is that of their
derivation. Evaluated, this is the value of the derivation: sums and products group to the left, a
power binds more tightly than a sign before it, and its exponent may have a sign of its own.
-/
namespace OpenQasm.Expr

def AddOp.operator : AddOp → BinaryOp
  | plus => .add
  | minus => .sub

def MulOp.operator : MulOp → BinaryOp
  | times => .mul
  | divide => .div

def functionOf (f : String) : Func :=
  (Func.ofName? f).getD .sin

/-- What a derivation stands for: a list for the arguments of a call. -/
abbrev Phrase.Result (α : Type) : Phrase → Type
  | .args => List α
  | _ => α

namespace Tree

/-- The value of a derivation, where names have the given values. -/
def value (names : String → Float) : {k : Phrase} → Tree k → k.Result Float
  | _, term t => t.value names
  | _, sum left op right => op.operator.apply (left.value names) (right.value names)
  | _, unary u => u.value names
  | _, product left op right => op.operator.apply (left.value names) (right.value names)
  | _, signed .plus u => u.value names
  | _, signed .minus u => (-(u.value names : Float) : Float)
  | _, unsigned p => p.value names
  | _, primary p => p.value names
  | _, raised base exponent => BinaryOp.pow.apply (base.value names) (exponent.value names)
  | _, number x => x
  | _, name n => names n
  | _, call f args => (functionOf f).apply (args.value names)
  | _, group e => e.value names
  | _, one e => [e.value names]
  | _, more args e => List.append (args.value names) [e.value names]

/-- The expression of a derivation, without signs and brackets that change nothing. -/
def toExpr : {k : Phrase} → Tree k → k.Result Expr
  | _, term t => t.toExpr
  | _, sum left op right => Expr.binary op.operator left.toExpr right.toExpr
  | _, unary u => u.toExpr
  | _, product left op right => Expr.binary op.operator left.toExpr right.toExpr
  | _, signed .plus u => u.toExpr
  | _, signed .minus u => Expr.negate u.toExpr
  | _, unsigned p => p.toExpr
  | _, primary p => p.toExpr
  | _, raised base exponent => Expr.binary .pow base.toExpr exponent.toExpr
  | _, number x => Expr.number x
  | _, name n => Expr.variable n
  | _, call f args => Expr.call (functionOf f) args.toExpr
  | _, group e => e.toExpr
  | _, one e => [e.toExpr]
  | _, more args e => List.append args.toExpr [e.toExpr]

end Tree

namespace Context

def frames : {k : Phrase} → Context k → List Frame
  | _, whole => []
  | _, group s => .group :: s.frames
  | _, call f s => .call (functionOf f) [] :: s.frames
  | _, argument f args s => .call (functionOf f) args.toExpr :: s.frames
  | _, term s => s.frames
  | _, sum left op s => .left left.toExpr op.operator :: s.frames
  | _, unary s => s.frames
  | _, product left op s => .left left.toExpr op.operator :: s.frames
  | _, signed .plus s => s.frames
  | _, signed .minus s => .negate :: s.frames
  | _, raised base s => .left base.toExpr .pow :: s.frames

end Context

theorem settle_settle {level level' : ℕ} (h : level ≤ level') (frames : List Frame) (e : Expr) :
    settle level (settle level' frames e).1 (settle level' frames e).2 =
      settle level frames e := by
  induction frames generalizing e with
  | nil => rfl
  | cons frame frames ih =>
      by_cases hbinding : level' ≤ frame.binding
      · rw [settle, if_pos hbinding, ih]
        rw [settle, if_pos (h.trans hbinding)]
      · rw [show settle level' (frame :: frames) e = (frame :: frames, e) by
          rw [settle, if_neg hbinding]]

theorem settle_expr_context (s : Context .expr) (e : Expr) :
    settle 1 s.frames e = (s.frames, e) := by
  cases s <;> simp [Context.frames, settle, Frame.binding]

theorem settle_term_context (s : Context .term) (e : Expr) :
    settle 2 s.frames e = (s.frames, e) := by
  cases s with
  | term s => cases s <;> simp [Context.frames, settle, Frame.binding]
  | sum left op s => cases op <;> simp [Context.frames, settle, Frame.binding, AddOp.operator]

theorem settle_closeUnary : (s : Context .unary) → (u : Tree .unary) →
    settle 2 s.frames u.toExpr =
      ((s.closeUnary u).1.frames, (s.closeUnary u).2.toExpr)
  | .unary s, u => by
      rw [Context.closeUnary]
      exact settle_term_context s _
  | .product left op s, u => by
      have hstop := settle_term_context s (.binary op.operator left.toExpr u.toExpr)
      rw [Context.closeUnary]
      cases op <;> exact hstop
  | .signed .plus s, u => by
      rw [Context.closeUnary, ← settle_closeUnary s]
      rfl
  | .signed .minus s, u => by
      rw [Context.closeUnary, ← settle_closeUnary s]
      rfl
  | .raised base s, u => by
      rw [Context.closeUnary, ← settle_closeUnary s]
      rfl

theorem settle_closeTerm (s : Context .term) (t : Tree .term) :
    settle 1 s.frames t.toExpr = ((s.closeTerm t).1.frames, (s.closeTerm t).2.toExpr) := by
  cases s with
  | term s => exact settle_expr_context s _
  | sum left op s =>
      have hstop := settle_expr_context s (.binary op.operator left.toExpr t.toExpr)
      cases op <;> exact hstop

theorem settle_termOf (s : Context .unary) (p : Tree .primary) :
    settle 2 s.frames p.toExpr = ((s.termOf p).1.frames, (s.termOf p).2.toExpr) :=
  settle_closeUnary s (.unsigned (.primary p))

/-- A sum, a difference or a bracket takes the whole expression that has been read. -/
theorem settle_exprOf (s : Context .unary) (p : Tree .primary) :
    settle 1 s.frames p.toExpr = ((s.exprOf p).1.frames, (s.exprOf p).2.toExpr) := by
  rw [← settle_settle one_le_two, settle_termOf]
  exact settle_closeTerm _ _

/-- The names among tokens are known: one before an opening bracket as that of a function, any
other as that of a number. -/
def NamesKnown (isNumber isFunction : String → Prop) : List Token → Prop
  | [] => True
  | .name f :: .symbol .opening :: rest => isFunction f ∧ NamesKnown isNumber isFunction rest
  | .name n :: rest => isNumber n ∧ NamesKnown isNumber isFunction rest
  | _ :: rest => NamesKnown isNumber isFunction rest

theorem namesKnown_name {isNumber isFunction : String → Prop} {n : String} {rest : List Token}
    (h : rest.head? ≠ some (.symbol .opening)) :
    NamesKnown isNumber isFunction (.name n :: rest) ↔
      isNumber n ∧ NamesKnown isNumber isFunction rest := by
  rw [NamesKnown]
  rintro rest' rfl
  exact h rfl

theorem operand_name {defined : String → Bool} {frames : List Frame} {n : String}
    {rest : List Token} (h : rest.head? ≠ some (.symbol .opening)) :
    operand defined frames (.name n :: rest) =
      if defined n then afterOperand defined frames (.variable n) rest else .error (.unset n) := by
  rw [operand]
  rintro rest' rfl
  exact h rfl

def Accepted (defined : String → Bool) (ts : List Token) : Prop :=
  NamesKnown (fun n => defined n = true) (fun f => (Func.ofName? f).isSome = true) ts

/-- Reading tokens from a state to the end gives a derivation of an expression. -/
def Derives (s : State) (ts : List Token) (e : Expr) : Prop :=
  ∃ t, (s.run ts).bind State.finish = some t ∧ t.toExpr = e

theorem derives_cons {s s' : State} {token : Token} (h : s.step token = some s')
    (ts : List Token) (e : Expr) : Derives s (token :: ts) e ↔ Derives s' ts e := by
  unfold Derives
  rw [State.run, h, Option.bind_some]

theorem not_derives_of_step {s : State} {token : Token} (h : s.step token = none)
    (ts : List Token) (e : Expr) : ¬ Derives s (token :: ts) e := by
  unfold Derives
  rw [State.run, h]
  simp

theorem afterOperand_nil (defined : String → Bool) (s : Context .unary) (p : Tree .primary)
    (e : Expr) :
    afterOperand defined s.frames p.toExpr [] = .ok e ↔ Derives (.after s p) [] e := by
  have hsettle := settle_exprOf s p
  unfold Derives
  rw [afterOperand, hsettle, State.run, Option.bind_some, State.finish]
  rcases s.exprOf p with ⟨c, t⟩
  cases c <;> simp [Context.frames]

/-- An operator takes what has been read and waits for its second operand. -/
theorem pushOperator_frames (s : Context .unary) (p : Tree .primary) {symbol : Symbol}
    {op : BinaryOp} (h : symbol.operator? = some op) :
    ∃ s', State.afterSymbol s p symbol = some (.operand s') ∧
      pushOperator s.frames p.toExpr op = s'.frames := by
  have hexpr := settle_exprOf s p
  have hterm := settle_termOf s p
  cases symbol <;> cases h
  · refine ⟨_, rfl, ?_⟩
    rw [pushOperator, if_neg (by decide)]
    simp only [Frame.binding, hexpr]
    rfl
  · refine ⟨_, rfl, ?_⟩
    rw [pushOperator, if_neg (by decide)]
    simp only [Frame.binding, hexpr]
    rfl
  · refine ⟨_, rfl, ?_⟩
    rw [pushOperator, if_neg (by decide)]
    simp only [Frame.binding, hterm]
    rfl
  · refine ⟨_, rfl, ?_⟩
    rw [pushOperator, if_neg (by decide)]
    simp only [Frame.binding, hterm]
    rfl
  · exact ⟨_, rfl, rfl⟩

theorem afterOperand_operator (defined : String → Bool) (frames : List Frame) (e : Expr)
    {symbol : Symbol} {op : BinaryOp} (h : symbol.operator? = some op) (rest : List Token) :
    afterOperand defined frames e (.symbol symbol :: rest) =
      operand defined (pushOperator frames e op) rest := by
  cases symbol <;> cases h <;> simp [afterOperand, Symbol.operator?]

/-- Two operands in a row, and an opening bracket after an operand, are refused. -/
theorem afterOperand_error (defined : String → Bool) (frames : List Frame) (e e' : Expr)
    {token : Token} (h : ∀ symbol, token = .symbol symbol → symbol = .opening)
    (rest : List Token) : afterOperand defined frames e (token :: rest) ≠ .ok e' := by
  cases token with
  | number x =>
      simp only [afterOperand]
      split <;> simp
  | name n =>
      simp only [afterOperand]
      split <;> simp
  | symbol symbol =>
      rw [h symbol rfl]
      simp only [afterOperand, Symbol.operator?]
      split <;> simp

theorem accepted_name {defined : String → Bool} {n : String} {rest : List Token}
    (h : rest.head? ≠ some (.symbol .opening)) :
    Accepted defined (.name n :: rest) ↔ defined n = true ∧ Accepted defined rest :=
  namesKnown_name h

theorem accepted_call {defined : String → Bool} {f : String} {rest : List Token} :
    Accepted defined (.name f :: .symbol .opening :: rest) ↔
      (Func.ofName? f).isSome = true ∧ Accepted defined rest := by
  rw [Accepted, NamesKnown]
  rfl

theorem accepted_symbol {defined : String → Bool} {symbol : Symbol} {rest : List Token} :
    Accepted defined (.symbol symbol :: rest) ↔ Accepted defined rest := by
  rw [Accepted, NamesKnown]
  rfl
  all_goals simp

/-- The reader and the derivation agree on up to `n` tokens where an operand is to come. -/
def OperandAgrees (defined : String → Bool) (n : ℕ) : Prop :=
  ∀ (s : Context .unary) (ts : List Token) (e : Expr), ts.length ≤ n →
    (operand defined s.frames ts = .ok e ↔ Accepted defined ts ∧ Derives (.operand s) ts e)

/-- They agree on up to `n` tokens after a primary phrase. A name before an opening bracket is no
such phrase. -/
def AfterAgrees (defined : String → Bool) (n : ℕ) : Prop :=
  ∀ (s : Context .unary) (p : Tree .primary) (ts : List Token) (e : Expr), ts.length ≤ n →
    (∀ f, p = .name f → ts.head? ≠ some (.symbol .opening)) →
    (afterOperand defined s.frames p.toExpr ts = .ok e ↔
      Accepted defined ts ∧ Derives (.after s p) ts e)

section Agreement

variable {defined : String → Bool} {n : ℕ} (s : Context .unary) (p : Tree .primary)
  {rest : List Token} (e : Expr)

/-- A name is that of a function before an opening bracket, and else that of a number. -/
theorem operand_iff_name (ho : OperandAgrees defined n) (ha : AfterAgrees defined n) (m : String)
    (hrest : rest.length ≤ n) :
    operand defined s.frames (.name m :: rest) = .ok e ↔
      Accepted defined (.name m :: rest) ∧ Derives (.operand s) (.name m :: rest) e := by
  rw [derives_cons rfl]
  by_cases hopen : rest.head? = some (.symbol .opening)
  · obtain ⟨rest, rfl⟩ := List.head?_eq_some_iff.mp hopen
    rw [operand, derives_cons rfl, accepted_call]
    cases hf : Func.ofName? m with
    | none => simp
    | some f =>
        have hcall := ho (Context.call m s).start rest e
          (Nat.le_of_succ_le (by simpa using hrest))
        have hframes : (Context.call m s).start.frames = .call f [] :: s.frames := by
          change Frame.call (functionOf m) [] :: s.frames = _
          rw [functionOf, hf, Option.getD_some]
        rw [hframes] at hcall
        simpa using hcall
  · rw [operand_name hopen, accepted_name hopen]
    by_cases hdefined : defined m = true
    · rw [if_pos hdefined, and_iff_right hdefined]
      exact ha s (.name m) rest e hrest (fun _ _ => hopen)
    · rw [if_neg hdefined]
      simp [hdefined]

theorem afterOperand_iff_closing (ha : AfterAgrees defined n) (hrest : rest.length ≤ n) :
    afterOperand defined s.frames p.toExpr (.symbol .closing :: rest) = .ok e ↔
      Accepted defined rest ∧ Derives (.after s p) (.symbol .closing :: rest) e := by
  have hsettle := settle_exprOf s p
  have hstep : (State.after s p).step (.symbol .closing) = State.afterSymbol s p .closing := rfl
  rcases hclose : s.exprOf p with ⟨c, t⟩
  simp only [State.afterSymbol, hclose] at hstep
  simp only [afterOperand, hsettle, hclose]
  cases c with
  | whole =>
      refine iff_of_false (by simp [Context.frames]) (fun h => ?_)
      exact not_derives_of_step hstep rest e h.2
  | group c =>
      rw [derives_cons hstep]
      exact ha c (.group t) rest e hrest (by simp)
  | call f c =>
      rw [derives_cons hstep]
      exact ha c (.call f (.one t)) rest e hrest (by simp)
  | argument f args c =>
      rw [derives_cons hstep]
      exact ha c (.call f (.more args t)) rest e hrest (by simp)

theorem afterOperand_iff_comma (ho : OperandAgrees defined n) (hrest : rest.length ≤ n) :
    afterOperand defined s.frames p.toExpr (.symbol .comma :: rest) = .ok e ↔
      Accepted defined rest ∧ Derives (.after s p) (.symbol .comma :: rest) e := by
  have hsettle := settle_exprOf s p
  have hstep : (State.after s p).step (.symbol .comma) = State.afterSymbol s p .comma := rfl
  rcases hclose : s.exprOf p with ⟨c, t⟩
  simp only [State.afterSymbol, hclose] at hstep
  simp only [afterOperand, hsettle, hclose]
  cases c with
  | whole =>
      refine iff_of_false (by simp [Context.frames]) (fun h => ?_)
      exact not_derives_of_step hstep rest e h.2
  | group c =>
      refine iff_of_false (by simp [Context.frames]) (fun h => ?_)
      exact not_derives_of_step hstep rest e h.2
  | call f c =>
      rw [derives_cons hstep]
      exact ho (Context.argument f (.one t) c).start rest e hrest
  | argument f args c =>
      rw [derives_cons hstep]
      exact ho (Context.argument f (.more args t) c).start rest e hrest

end Agreement

theorem operandAgrees_succ {defined : String → Bool} {n : ℕ} (ho : OperandAgrees defined n)
    (ha : AfterAgrees defined n) : OperandAgrees defined (n + 1) := by
  intro s ts e hlen
  cases ts with
  | nil =>
      rw [operand]
      simp [Derives, State.run, State.finish]
  | cons token rest =>
      have hrest : rest.length ≤ n := Nat.le_of_succ_le_succ hlen
      cases token with
      | number x =>
          rw [operand, derives_cons rfl]
          exact ha s (.number x) rest e hrest (by simp)
      | name m => exact operand_iff_name s e ho ha m hrest
      | symbol symbol =>
          rw [accepted_symbol]
          cases symbol with
          | plus =>
              rw [operand, derives_cons rfl]
              exact ho (.signed .plus s) rest e hrest
          | minus =>
              rw [operand, derives_cons rfl]
              exact ho (.signed .minus s) rest e hrest
          | opening =>
              rw [operand, derives_cons rfl]
              exact ho (Context.group s).start rest e hrest
          | _ =>
              refine iff_of_false (by simp [operand]) (fun h => ?_)
              exact not_derives_of_step rfl rest e h.2

theorem afterAgrees_succ {defined : String → Bool} {n : ℕ} (ho : OperandAgrees defined n)
    (ha : AfterAgrees defined n) : AfterAgrees defined (n + 1) := by
  intro s p ts e hlen hname
  cases ts with
  | nil =>
      rw [afterOperand_nil]
      simp [Accepted, NamesKnown]
  | cons token rest =>
      have hrest : rest.length ≤ n := Nat.le_of_succ_le_succ hlen
      cases token with
      | number x =>
          refine iff_of_false (afterOperand_error _ _ _ _ (by simp) _) (fun h => ?_)
          exact not_derives_of_step rfl rest e h.2
      | name m =>
          refine iff_of_false (afterOperand_error _ _ _ _ (by simp) _) (fun h => ?_)
          exact not_derives_of_step rfl rest e h.2
      | symbol symbol =>
          rw [accepted_symbol]
          cases hop : symbol.operator? with
          | some op =>
              obtain ⟨s', hafter, hpush⟩ := pushOperator_frames s p hop
              have hstep : (State.after s p).step (.symbol symbol) = some (.operand s') := hafter
              rw [afterOperand_operator _ _ _ hop, hpush, derives_cons hstep]
              exact ho s' rest e hrest
          | none =>
              cases symbol with
              | opening =>
                  refine iff_of_false (afterOperand_error _ _ _ _ (by simp) _) (fun h => ?_)
                  refine not_derives_of_step ?_ rest e h.2
                  cases p with
                  | name f => exact absurd rfl (hname f rfl)
                  | _ => rfl
              | closing => exact afterOperand_iff_closing s p e ha hrest
              | comma => exact afterOperand_iff_comma s p e ho hrest
              | _ => cases hop

/-- The reader and the derivation agree on all tokens. -/
theorem agrees (defined : String → Bool) (n : ℕ) :
    OperandAgrees defined n ∧ AfterAgrees defined n := by
  induction n with
  | zero =>
      refine ⟨fun s ts e hlen => ?_, fun s p ts e hlen _ => ?_⟩
      · rw [List.length_eq_zero_iff.mp (Nat.le_zero.mp hlen), operand]
        simp [Derives, State.run, State.finish]
      · rw [List.length_eq_zero_iff.mp (Nat.le_zero.mp hlen), afterOperand_nil]
        simp [Accepted, NamesKnown]
  | succ n ih => exact ⟨operandAgrees_succ ih.1 ih.2, afterAgrees_succ ih.1 ih.2⟩

/-- A list of tokens is read as an expression if its names are known and it has a derivation. -/
theorem ofTokens_iff {defined : String → Bool} {ts : List Token} {e : Expr} :
    ofTokens defined ts = .ok e ↔
      Accepted defined ts ∧ ∃ t : Tree .expr, t.tokens = ts ∧ t.toExpr = e := by
  have hagrees := (agrees defined ts.length).1 Context.whole.start ts e le_rfl
  have hderives : Derives (.operand Context.whole.start) ts e ↔
      ∃ t : Tree .expr, t.tokens = ts ∧ t.toExpr = e := by
    constructor
    · rintro ⟨t, hderive, rfl⟩
      exact ⟨t, tokens_of_derive hderive, rfl⟩
    · rintro ⟨t, rfl, rfl⟩
      exact ⟨t, derive_tokens t, rfl⟩
  rw [← hderives, ← hagrees]
  unfold ofTokens
  cases ts with
  | nil => simp [operand]
  | cons token rest => rfl

def Phrase.evalResult (names : String → Float) : (k : Phrase) → k.Result Expr → k.Result Float
  | .args => evalAll names
  | .expr => eval names
  | .term => eval names
  | .unary => eval names
  | .power => eval names
  | .primary => eval names

theorem evalAll_append (names : String → Float) (es : List Expr) (e : Expr) :
    evalAll names (es ++ [e]) = evalAll names es ++ [eval names e] := by
  simp [evalAll_eq_map]

theorem Tree.evalResult_toExpr (names : String → Float) {k : Phrase} (t : Tree k) :
    k.evalResult names t.toExpr = t.value names := by
  induction t with
  | term t ih => exact ih
  | sum left op right ihl ihr => exact congrArg₂ op.operator.apply ihl ihr
  | unary u ih => exact ih
  | product left op right ihl ihr => exact congrArg₂ op.operator.apply ihl ihr
  | signed sign u ih =>
      cases sign with
      | plus => exact ih
      | minus => exact congrArg (fun x : Float => -x) ih
  | unsigned p ih => exact ih
  | primary p ih => exact ih
  | raised base exponent ihb ihe => exact congrArg₂ BinaryOp.pow.apply ihb ihe
  | number x => rfl
  | name n => rfl
  | call f args ih => exact congrArg (functionOf f).apply ih
  | group e ih => exact ih
  | one e ih => exact congrArg (fun x => [x]) ih
  | more args e iha ihe =>
      exact (evalAll_append names args.toExpr e.toExpr).trans
        (congrArg₂ (fun xs x => xs ++ [x]) iha ihe)

/-- The names of functions; two of them are the natural logarithm. -/
def functionNames : List String :=
  ["sin", "cos", "tan", "asin", "acos", "atan", "exp", "log", "ln", "sqrt", "abs", "sign",
    "atan2", "max", "min"]

theorem isSome_ofName? (f : String) : (Func.ofName? f).isSome = true ↔ f ∈ functionNames := by
  unfold Func.ofName?
  split
  all_goals simp_all [functionNames]

theorem namesKnown_congr {isNumber isNumber' isFunction isFunction' : String → Prop}
    (hnumber : ∀ n, isNumber n ↔ isNumber' n) (hfunction : ∀ f, isFunction f ↔ isFunction' f)
    (ts : List Token) :
    NamesKnown isNumber isFunction ts ↔ NamesKnown isNumber' isFunction' ts := by
  have hnumber : isNumber = isNumber' := funext (fun n => propext (hnumber n))
  have hfunction : isFunction = isFunction' := funext (fun f => propext (hfunction f))
  rw [hnumber, hfunction]

end OpenQasm.Expr

namespace OpenQasm.Calculator

open OpenQasm.Expr

/-- What a name stands for: its variable, else the constant of that name. -/
def numberOf (c : Calculator) (n : String) : Float :=
  match c.values.get? n with
  | some x => x
  | none =>
      if n = "pi" then 3.141592653589793
      else if n = "e" then 2.718281828459045
      else Number.nan

theorem valuation_eq (c : Calculator) : c.valuation = c.numberOf := by
  funext n
  unfold valuation lookup? numberOf constant?
  cases c.values.get? n with
  | some x => rfl
  | none =>
      split
      all_goals simp_all

theorem isDefined_iff (c : Calculator) (n : String) :
    c.isDefined n = true ↔ c.has n = true ∨ n = "pi" ∨ n = "e" := by
  unfold isDefined lookup? has Table.contains constant?
  cases c.values.get? n with
  | some x => simp
  | none =>
      split
      all_goals simp_all

theorem evaluate_eq_ok_iff (c : Calculator) (text : String) (x : Float) :
    c.evaluate (.expression text) = .ok x ↔
      ∃ ts e, lex text.toList = .ok ts ∧ ofTokens c.isDefined ts = .ok e ∧
        e.eval c.valuation = x := by
  unfold evaluate Expr.parse Expr.tokens
  dsimp only
  cases hlex : lex text.toList with
  | error stray => simp [Except.mapError, bind, Except.bind]
  | ok ts =>
      simp only [Except.mapError, bind, Except.bind]
      cases hparse : ofTokens c.isDefined ts with
      | error fault => simp [hparse]
      | ok e => simp [hparse]

/-- The value of an expression. A text has one if and only if it is cut into tokens whose names are
known and which the grammar derives; the derivation is then unique, and the value is that of the
derivation. Otherwise the text and what is wrong with it are reported. -/
theorem evaluate_expression (c : Calculator) (text : String) :
    (∀ x, c.evaluate (.expression text) = .ok x ↔
      ∃ ts, lex text.toList = .ok ts ∧
        NamesKnown (fun n => c.has n = true ∨ n = "pi" ∨ n = "e") (· ∈ functionNames) ts ∧
        ∃ t : Tree .expr, (t.tokens = ts ∧ ∀ t' : Tree .expr, t'.tokens = ts → t' = t) ∧
          t.value c.numberOf = x) ∧
    ∀ error, c.evaluate (.expression text) = .error error →
      ∃ fault, error = ⟨text, .expr fault⟩ := by
  constructor
  · intro x
    have hknown (ts : List Token) : Accepted c.isDefined ts ↔
        NamesKnown (fun n => c.has n = true ∨ n = "pi" ∨ n = "e") (· ∈ functionNames) ts :=
      namesKnown_congr (c.isDefined_iff) isSome_ofName? ts
    rw [evaluate_eq_ok_iff]
    constructor
    · rintro ⟨ts, e, hlex, hread, rfl⟩
      obtain ⟨haccepted, t, htokens, rfl⟩ := ofTokens_iff.mp hread
      refine ⟨ts, hlex, (hknown ts).mp haccepted, t, ⟨htokens, fun t' ht' => ?_⟩, ?_⟩
      · exact Tree.eq_of_tokens (ht'.trans htokens.symm)
      · rw [← c.valuation_eq]
        exact (t.evalResult_toExpr c.valuation).symm
    · rintro ⟨ts, hlex, hnames, t, ⟨htokens, -⟩, rfl⟩
      refine ⟨ts, t.toExpr, hlex, ofTokens_iff.mpr ⟨(hknown ts).mpr hnames, t, htokens, rfl⟩, ?_⟩
      rw [← c.valuation_eq]
      exact t.evalResult_toExpr c.valuation
  · intro error herror
    unfold evaluate at herror
    dsimp only at herror
    split at herror
    · cases herror
    next fault _ =>
      cases herror
      exact ⟨fault, rfl⟩

end OpenQasm.Calculator

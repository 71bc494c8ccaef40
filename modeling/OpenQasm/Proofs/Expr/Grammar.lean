import Mathlib
import OpenQasm.Expr.Parser

/-!
# The grammar of expressions

A `Tree` is a derivation in the grammar of expressions, one constructor for each alternative of a
rule. A repetition groups to the left, so that a sum or a product is its last operand and all that
comes before. `Tree.tokens` are the tokens derived.

A `Context` is a derivation with a hole, up to the hole: what has been read where a phrase is still
to come. `readOperand` goes through tokens and keeps such a context. Every tree is what reading its
tokens gives, so the tokens have no other tree.
-/
namespace OpenQasm.Expr

/-- The phrases that the rules define; the arguments of a call are one more. -/
inductive Phrase where
  | expr | term | unary | power | primary | args
  deriving DecidableEq, Repr

inductive AddOp where
  | plus | minus
  deriving DecidableEq, Repr

inductive MulOp where
  | times | divide
  deriving DecidableEq, Repr

def AddOp.symbol : AddOp → Symbol
  | plus => .plus
  | minus => .minus

def MulOp.symbol : MulOp → Symbol
  | times => .times
  | divide => .divide

/-- Derivations of a phrase. -/
inductive Tree : Phrase → Type where
  | term (t : Tree .term) : Tree .expr
  | sum (left : Tree .expr) (op : AddOp) (right : Tree .term) : Tree .expr
  | unary (u : Tree .unary) : Tree .term
  | product (left : Tree .term) (op : MulOp) (right : Tree .unary) : Tree .term
  | signed (sign : AddOp) (u : Tree .unary) : Tree .unary
  | unsigned (p : Tree .power) : Tree .unary
  | primary (p : Tree .primary) : Tree .power
  | raised (base : Tree .primary) (exponent : Tree .unary) : Tree .power
  | number (x : Float) : Tree .primary
  | name (n : String) : Tree .primary
  | call (f : String) (args : Tree .args) : Tree .primary
  | group (e : Tree .expr) : Tree .primary
  | one (e : Tree .expr) : Tree .args
  | more (args : Tree .args) (e : Tree .expr) : Tree .args

namespace Tree

def tokens : {k : Phrase} → Tree k → List Token
  | _, term t => t.tokens
  | _, sum left op right => left.tokens ++ .symbol op.symbol :: right.tokens
  | _, unary u => u.tokens
  | _, product left op right => left.tokens ++ .symbol op.symbol :: right.tokens
  | _, signed sign u => .symbol sign.symbol :: u.tokens
  | _, unsigned p => p.tokens
  | _, primary p => p.tokens
  | _, raised base exponent => base.tokens ++ .symbol .power :: exponent.tokens
  | _, number x => [.number x]
  | _, name n => [.name n]
  | _, call f args => .name f :: .symbol .opening :: (args.tokens ++ [.symbol .closing])
  | _, group e => .symbol .opening :: (e.tokens ++ [.symbol .closing])
  | _, one e => e.tokens
  | _, more args e => args.tokens ++ .symbol .comma :: e.tokens

end Tree

/-- What has been read where a phrase is to come next. -/
inductive Context : Phrase → Type where
  | whole : Context .expr
  | group (s : Context .unary) : Context .expr
  | call (f : String) (s : Context .unary) : Context .expr
  | argument (f : String) (args : Tree .args) (s : Context .unary) : Context .expr
  | term (s : Context .expr) : Context .term
  | sum (left : Tree .expr) (op : AddOp) (s : Context .expr) : Context .term
  | unary (s : Context .term) : Context .unary
  | product (left : Tree .term) (op : MulOp) (s : Context .term) : Context .unary
  | signed (sign : AddOp) (s : Context .unary) : Context .unary
  | raised (base : Tree .primary) (s : Context .unary) : Context .unary

namespace Context

def before : {k : Phrase} → Context k → List Token
  | _, whole => []
  | _, group s => s.before ++ [.symbol .opening]
  | _, call f s => s.before ++ [.name f, .symbol .opening]
  | _, argument f args s =>
      s.before ++ .name f :: .symbol .opening :: (args.tokens ++ [.symbol .comma])
  | _, term s => s.before
  | _, sum left op s => s.before ++ (left.tokens ++ [.symbol op.symbol])
  | _, unary s => s.before
  | _, product left op s => s.before ++ (left.tokens ++ [.symbol op.symbol])
  | _, signed sign s => s.before ++ [.symbol sign.symbol]
  | _, raised base s => s.before ++ (base.tokens ++ [.symbol .power])

/-- The term that ends with a unary phrase in a context, and the context of the term. -/
def closeUnary : Context .unary → Tree .unary → Context .term × Tree .term
  | unary s, u => (s, .unary u)
  | product left op s, u => (s, .product left op u)
  | signed sign s, u => closeUnary s (.signed sign u)
  | raised base s, u => closeUnary s (.unsigned (.raised base u))

/-- The expression that ends with a term in a context, and the context of the expression. -/
def closeTerm : Context .term → Tree .term → Context .expr × Tree .expr
  | term s, t => (s, .term t)
  | sum left op s, t => (s, .sum left op t)

def termOf (s : Context .unary) (p : Tree .primary) : Context .term × Tree .term :=
  s.closeUnary (.unsigned (.primary p))

def exprOf (s : Context .unary) (p : Tree .primary) : Context .expr × Tree .expr :=
  (s.termOf p).1.closeTerm (s.termOf p).2

/-- Where an expression starts, its first unary phrase starts. -/
def start (s : Context .expr) : Context .unary :=
  .unary (.term s)

end Context

/-- How far reading has come: to a place where a unary phrase is to come, or after a primary
phrase. -/
inductive State where
  | operand (s : Context .unary)
  | after (s : Context .unary) (p : Tree .primary)

namespace State

def before : State → List Token
  | operand s => s.before
  | after s p => s.before ++ p.tokens

/-- A symbol after a primary phrase: an operator takes what binds more tightly, a bracket takes a
whole expression. A name is that of a function if a bracket opens after it. -/
def afterSymbol (s : Context .unary) (p : Tree .primary) : Symbol → Option State
  | .plus => some (.operand (.unary (.sum (s.exprOf p).2 .plus (s.exprOf p).1)))
  | .minus => some (.operand (.unary (.sum (s.exprOf p).2 .minus (s.exprOf p).1)))
  | .times => some (.operand (.product (s.termOf p).2 .times (s.termOf p).1))
  | .divide => some (.operand (.product (s.termOf p).2 .divide (s.termOf p).1))
  | .power => some (.operand (.raised p s))
  | .opening =>
      match p with
      | .name f => some (.operand (Context.call f s).start)
      | _ => none
  | .closing =>
      match s.exprOf p with
      | (.group s, e) => some (.after s (.group e))
      | (.call f s, e) => some (.after s (.call f (.one e)))
      | (.argument f args s, e) => some (.after s (.call f (.more args e)))
      | (.whole, _) => none
  | .comma =>
      match s.exprOf p with
      | (.call f s, e) => some (.operand (Context.argument f (.one e) s).start)
      | (.argument f args s, e) => some (.operand (Context.argument f (.more args e) s).start)
      | _ => none

def step : State → Token → Option State
  | operand s, .number x => some (.after s (.number x))
  | operand s, .name n => some (.after s (.name n))
  | operand s, .symbol .plus => some (.operand (.signed .plus s))
  | operand s, .symbol .minus => some (.operand (.signed .minus s))
  | operand s, .symbol .opening => some (.operand (Context.group s).start)
  | operand _, .symbol _ => none
  | after s p, .symbol symbol => afterSymbol s p symbol
  | after _ _, _ => none

def run (s : State) : List Token → Option State
  | [] => some s
  | token :: rest => (s.step token).bind (fun s => s.run rest)

def finish : State → Option (Tree .expr)
  | operand _ => none
  | after s p =>
      match s.exprOf p with
      | (.whole, e) => some e
      | _ => none

end State

def derive (ts : List Token) : Option (Tree .expr) :=
  ((State.operand Context.whole.start).run ts).bind State.finish

namespace Context

theorem before_closeUnary : (s : Context .unary) → (u : Tree .unary) →
    (s.closeUnary u).1.before ++ (s.closeUnary u).2.tokens = s.before ++ u.tokens
  | unary s, u => by simp [closeUnary, before, Tree.tokens]
  | product left op s, u => by simp [closeUnary, before, Tree.tokens]
  | signed sign s, u => by
      rw [closeUnary, before_closeUnary s]
      simp [before, Tree.tokens]
  | raised base s, u => by
      rw [closeUnary, before_closeUnary s]
      simp [before, Tree.tokens]

theorem before_closeTerm (s : Context .term) (t : Tree .term) :
    (s.closeTerm t).1.before ++ (s.closeTerm t).2.tokens = s.before ++ t.tokens := by
  cases s with
  | term s => rfl
  | sum left op s => simp [closeTerm, before, Tree.tokens]

theorem before_termOf (s : Context .unary) (p : Tree .primary) :
    (s.termOf p).1.before ++ (s.termOf p).2.tokens = s.before ++ p.tokens :=
  before_closeUnary s _

theorem before_exprOf (s : Context .unary) (p : Tree .primary) :
    (s.exprOf p).1.before ++ (s.exprOf p).2.tokens = s.before ++ p.tokens := by
  rw [exprOf, before_closeTerm, before_termOf]

end Context

namespace State

section AfterSymbol

variable {s : Context .unary} {p : Tree .primary} {s' : State}

theorem before_closing (h : afterSymbol s p .closing = some s') :
    s'.before = s.before ++ p.tokens ++ [.symbol .closing] := by
  have hexpr := s.before_exprOf p
  simp only [afterSymbol] at h
  generalize s.exprOf p = closed at h hexpr
  obtain ⟨c, e⟩ := closed
  rw [← hexpr]
  cases c with
  | whole => cases h
  | group c =>
      cases h
      simp [before, Context.before, Tree.tokens]
  | call f c =>
      cases h
      simp [before, Context.before, Tree.tokens]
  | argument f args c =>
      cases h
      simp [before, Context.before, Tree.tokens]

theorem before_comma (h : afterSymbol s p .comma = some s') :
    s'.before = s.before ++ p.tokens ++ [.symbol .comma] := by
  have hexpr := s.before_exprOf p
  simp only [afterSymbol] at h
  generalize s.exprOf p = closed at h hexpr
  obtain ⟨c, e⟩ := closed
  rw [← hexpr]
  cases c with
  | whole => cases h
  | group c => cases h
  | call f c =>
      cases h
      simp [before, Context.before, Context.start, Tree.tokens]
  | argument f args c =>
      cases h
      simp [before, Context.before, Context.start, Tree.tokens]

theorem before_afterSymbol {symbol : Symbol} (h : afterSymbol s p symbol = some s') :
    s'.before = s.before ++ p.tokens ++ [.symbol symbol] := by
  have hterm := s.before_termOf p
  have hexpr := s.before_exprOf p
  cases symbol with
  | plus =>
      cases h
      simp [before, Context.before, AddOp.symbol, ← hexpr]
  | minus =>
      cases h
      simp [before, Context.before, AddOp.symbol, ← hexpr]
  | times =>
      cases h
      simp [before, Context.before, MulOp.symbol, ← hterm]
  | divide =>
      cases h
      simp [before, Context.before, MulOp.symbol, ← hterm]
  | power =>
      cases h
      simp [before, Context.before]
  | opening =>
      cases p <;> cases h
      simp [before, Context.before, Context.start, Tree.tokens]
  | closing => exact before_closing h
  | comma => exact before_comma h

end AfterSymbol

theorem before_step {s s' : State} {token : Token} (h : s.step token = some s') :
    s'.before = s.before ++ [token] := by
  cases s with
  | operand s =>
      cases token with
      | number x =>
          cases h
          rfl
      | name n =>
          cases h
          rfl
      | symbol symbol =>
          cases symbol <;> cases h <;> rfl
  | after s p =>
      cases token with
      | number x => cases h
      | name n => cases h
      | symbol symbol => exact before_afterSymbol h

theorem before_run {s s' : State} {ts : List Token} (h : s.run ts = some s') :
    s'.before = s.before ++ ts := by
  induction ts generalizing s with
  | nil =>
      cases h
      simp
  | cons token rest ih =>
      obtain ⟨s₁, hstep, hrun⟩ := Option.bind_eq_some_iff.mp h
      rw [ih hrun, before_step hstep, List.append_assoc, List.singleton_append]

theorem tokens_of_finish {s : State} {e : Tree .expr} (h : s.finish = some e) :
    e.tokens = s.before := by
  cases s with
  | operand s => cases h
  | after s p =>
      have hexpr := s.before_exprOf p
      simp only [finish] at h
      split at h
      next heq =>
        cases h
        rw [heq] at hexpr
        exact hexpr
      next => cases h

theorem run_append (s : State) (ts ts' : List Token) :
    s.run (ts ++ ts') = (s.run ts).bind (fun s => s.run ts') := by
  induction ts generalizing s with
  | nil => rfl
  | cons token rest ih =>
      rw [List.cons_append, run, run]
      cases s.step token with
      | none => rfl
      | some s' => exact ih s'

theorem run_of_step {s s₁ s₂ : State} {ts : List Token} {token : Token}
    (h : s.run ts = some s₁) (hstep : s₁.step token = some s₂) (rest : List Token) :
    s.run (ts ++ token :: rest) = s₂.run rest := by
  rw [run_append, h, Option.bind_some, run, hstep, Option.bind_some]

end State

namespace Tree

/-- What reading the tokens of a derivation comes to, in every context of its phrase: the state
after its last primary phrase, from which the derivation and its context are recovered. -/
def Reads : {k : Phrase} → Tree k → Prop
  | .expr, t => ∀ c : Context .expr, ∃ s p,
      (State.operand c.start).run t.tokens = some (.after s p) ∧ s.exprOf p = (c, t)
  | .term, t => ∀ c : Context .term, ∃ s p,
      (State.operand (.unary c)).run t.tokens = some (.after s p) ∧ s.termOf p = (c, t)
  | .unary, t => ∀ c : Context .unary, ∃ s p,
      (State.operand c).run t.tokens = some (.after s p) ∧ s.termOf p = c.closeUnary t
  | .power, t => ∀ c : Context .unary, ∃ s p,
      (State.operand c).run t.tokens = some (.after s p) ∧
        s.termOf p = c.closeUnary (.unsigned t)
  | .primary, t => ∀ c : Context .unary, (State.operand c).run t.tokens = some (.after c t)
  | .args, t => ∀ (f : String) (c : Context .unary), ∃ s p,
      (State.operand (Context.call f c).start).run t.tokens = some (.after s p) ∧
        (State.after s p).step (.symbol .closing) = some (.after c (.call f t)) ∧
        (State.after s p).step (.symbol .comma) = some (.operand (Context.argument f t c).start)

theorem reads_sum {left : Tree .expr} {op : AddOp} {right : Tree .term} (hleft : left.Reads)
    (hright : right.Reads) : (sum left op right).Reads := by
  intro c
  obtain ⟨s, p, hrun, hclose⟩ := hleft c
  obtain ⟨s', p', hrun', hclose'⟩ := hright (.sum left op c)
  have hstep : (State.after s p).step (.symbol op.symbol) =
      some (.operand (.unary (.sum left op c))) := by
    cases op <;> simp [State.step, State.afterSymbol, AddOp.symbol, hclose]
  refine ⟨s', p', ?_, ?_⟩
  · rw [tokens, State.run_of_step hrun hstep, hrun']
  · rw [Context.exprOf, hclose', Context.closeTerm]

theorem reads_product {left : Tree .term} {op : MulOp} {right : Tree .unary} (hleft : left.Reads)
    (hright : right.Reads) : (product left op right).Reads := by
  intro c
  obtain ⟨s, p, hrun, hclose⟩ := hleft c
  obtain ⟨s', p', hrun', hclose'⟩ := hright (.product left op c)
  have hstep : (State.after s p).step (.symbol op.symbol) =
      some (.operand (.product left op c)) := by
    cases op <;> simp [State.step, State.afterSymbol, MulOp.symbol, hclose]
  refine ⟨s', p', ?_, ?_⟩
  · rw [tokens, State.run_of_step hrun hstep, hrun']
  · rw [hclose', Context.closeUnary]

theorem reads_signed {sign : AddOp} {u : Tree .unary} (hu : u.Reads) : (signed sign u).Reads := by
  intro c
  obtain ⟨s, p, hrun, hclose⟩ := hu (.signed sign c)
  have hstep : (State.operand c).step (.symbol sign.symbol) =
      some (.operand (.signed sign c)) := by
    cases sign <;> rfl
  refine ⟨s, p, ?_, ?_⟩
  · rw [tokens, State.run, hstep, Option.bind_some, hrun]
  · rw [hclose, Context.closeUnary]

theorem reads_raised {base : Tree .primary} {exponent : Tree .unary} (hbase : base.Reads)
    (hexponent : exponent.Reads) : (raised base exponent).Reads := by
  intro c
  obtain ⟨s, p, hrun, hclose⟩ := hexponent (.raised base c)
  have hstep : (State.after c base).step (.symbol .power) =
      some (.operand (.raised base c)) := rfl
  refine ⟨s, p, ?_, ?_⟩
  · rw [tokens, State.run_of_step (hbase c) hstep, hrun]
  · rw [hclose, Context.closeUnary]

theorem reads_call {f : String} {args : Tree .args} (hargs : args.Reads) :
    (call f args).Reads := by
  intro c
  obtain ⟨s, p, hrun, hclosing, -⟩ := hargs f c
  have hopen : (State.operand c).run (.name f :: .symbol .opening :: (args.tokens ++
      [.symbol .closing])) = (State.operand (Context.call f c).start).run
        (args.tokens ++ [.symbol .closing]) := rfl
  rw [tokens, hopen, State.run_of_step hrun hclosing]
  rfl

theorem reads_group {e : Tree .expr} (he : e.Reads) : (group e).Reads := by
  intro c
  obtain ⟨s, p, hrun, hclose⟩ := he (.group c)
  have hopen : (State.operand c).run (.symbol .opening :: (e.tokens ++ [.symbol .closing])) =
      (State.operand (Context.group c).start).run (e.tokens ++ [.symbol .closing]) := rfl
  have hclosing : (State.after s p).step (.symbol .closing) = some (.after c (.group e)) := by
    simp [State.step, State.afterSymbol, hclose]
  rw [tokens, hopen, State.run_of_step hrun hclosing]
  rfl

theorem reads_more {args : Tree .args} {e : Tree .expr} (hargs : args.Reads) (he : e.Reads) :
    (more args e).Reads := by
  intro f c
  obtain ⟨s, p, hrun, -, hcomma⟩ := hargs f c
  obtain ⟨s', p', hrun', hclose⟩ := he (.argument f args c)
  refine ⟨s', p', ?_, ?_, ?_⟩
  · rw [tokens, State.run_of_step hrun hcomma, hrun']
  · simp [State.step, State.afterSymbol, hclose]
  · simp [State.step, State.afterSymbol, hclose]

theorem reads {k : Phrase} (t : Tree k) : t.Reads := by
  induction t with
  | term t ih =>
      intro c
      obtain ⟨s, p, hrun, hclose⟩ := ih (.term c)
      refine ⟨s, p, hrun, ?_⟩
      rw [Context.exprOf, hclose, Context.closeTerm]
  | sum left op right hleft hright => exact reads_sum hleft hright
  | unary u ih =>
      intro c
      obtain ⟨s, p, hrun, hclose⟩ := ih (.unary c)
      refine ⟨s, p, hrun, ?_⟩
      rw [hclose, Context.closeUnary]
  | product left op right hleft hright => exact reads_product hleft hright
  | signed sign u ih => exact reads_signed ih
  | unsigned p ih => exact ih
  | primary p ih => exact fun c => ⟨c, p, ih c, rfl⟩
  | raised base exponent hbase hexponent => exact reads_raised hbase hexponent
  | number x => exact fun c => rfl
  | name n => exact fun c => rfl
  | call f args ih => exact reads_call ih
  | group e ih => exact reads_group ih
  | one e ih =>
      intro f c
      obtain ⟨s, p, hrun, hclose⟩ := ih (.call f c)
      refine ⟨s, p, hrun, ?_, ?_⟩
      · simp [State.step, State.afterSymbol, hclose]
      · simp [State.step, State.afterSymbol, hclose]
  | more args e hargs he => exact reads_more hargs he

end Tree

/-- Reading the tokens of a derivation gives the derivation. -/
theorem derive_tokens (t : Tree .expr) : derive t.tokens = some t := by
  obtain ⟨s, p, hrun, hclose⟩ := t.reads .whole
  unfold derive
  rw [hrun]
  simp [State.finish, hclose]

/-- Tokens have at most one derivation. -/
theorem Tree.eq_of_tokens {t t' : Tree .expr} (h : t.tokens = t'.tokens) : t = t' := by
  have hderive := derive_tokens t
  rw [h, derive_tokens t'] at hderive
  exact (Option.some.inj hderive).symm

theorem tokens_of_derive {ts : List Token} {t : Tree .expr} (h : derive ts = some t) :
    t.tokens = ts := by
  obtain ⟨s, hrun, hfinish⟩ := Option.bind_eq_some_iff.mp h
  rw [State.tokens_of_finish hfinish, State.before_run hrun]
  simp [State.before, Context.start, Context.before]

end OpenQasm.Expr

import OpenQasm.Number.Functions

/-!
# Expressions

The tree of an angle expression and its value. A tree only holds functions that exist; whether its
variables have values is asked of the valuation under which it is evaluated.
-/
namespace OpenQasm

namespace Expr

/-- The functions an expression may call. -/
inductive Func where
  | sin | cos | tan | asin | acos | atan | exp | log | sqrt | abs | sign | atan2 | max | min
  deriving DecidableEq, Repr

inductive BinaryOp where
  | add | sub | mul | div | pow
  deriving DecidableEq, Repr

end Expr

inductive Expr where
  | number (value : Float)
  | variable (name : String)
  | negate (e : Expr)
  | binary (op : Expr.BinaryOp) (left right : Expr)
  | call (f : Expr.Func) (args : List Expr)
  deriving Repr

namespace Expr

/-- The function of a given name; the natural logarithm has two. -/
def Func.ofName? (name : String) : Option Func :=
  match name with
  | "sin" => some .sin
  | "cos" => some .cos
  | "tan" => some .tan
  | "asin" => some .asin
  | "acos" => some .acos
  | "atan" => some .atan
  | "exp" => some .exp
  | "log" => some .log
  | "ln" => some .log
  | "sqrt" => some .sqrt
  | "abs" => some .abs
  | "sign" => some .sign
  | "atan2" => some .atan2
  | "max" => some .max
  | "min" => some .min
  | _ => none

/-- The value of a call. Functions of one argument ignore further ones, and an argument that is
missing counts as not a number. -/
def Func.apply (f : Func) (args : List Float) : Float :=
  let x := args.headD Number.nan
  match f with
  | sin => x.sin
  | cos => x.cos
  | tan => x.tan
  | asin => x.asin
  | acos => x.acos
  | atan => x.atan
  | exp => x.exp
  | log => x.log
  | sqrt => x.sqrt
  | abs => x.abs
  | sign => Number.sign x
  | atan2 => x.atan2 (args.tail.headD Number.nan)
  | max => Number.maximum x args.tail
  | min => Number.minimum x args.tail

def BinaryOp.apply (op : BinaryOp) (x y : Float) : Float :=
  match op with
  | add => x + y
  | sub => x - y
  | mul => x * y
  | div => x / y
  | pow => Number.power x y

mutual

/-- The value of an expression under a valuation of its variables. -/
def eval (valuation : String → Float) : Expr → Float
  | number value => value
  | «variable» name => valuation name
  | negate e => -eval valuation e
  | binary op left right => op.apply (eval valuation left) (eval valuation right)
  | call f args => f.apply (evalAll valuation args)

def evalAll (valuation : String → Float) : List Expr → List Float
  | [] => []
  | e :: rest => eval valuation e :: evalAll valuation rest

end

theorem evalAll_eq_map (valuation : String → Float) (es : List Expr) :
    evalAll valuation es = es.map (eval valuation) := by
  induction es with
  | nil => rfl
  | cons e rest ih => simp [evalAll, ih]

end Expr

end OpenQasm

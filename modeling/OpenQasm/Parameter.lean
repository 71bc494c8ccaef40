import OpenQasm.Expr.Parser
import OpenQasm.Number.Reader
import OpenQasm.Table

/-!
# Parameters and the calculator

A parameter of an operation is a number or the text of an expression. A calculator holds the
values of named variables and evaluates parameters; its variables take precedence over the two
constants. Without a calculator only numbers and numeric literals have a value.
-/
namespace OpenQasm

inductive Parameter where
  | number (x : Float)
  | expression (text : String)
  deriving DecidableEq, Repr

namespace Parameter

/-- Why a parameter has no value. -/
inductive Fault where
  | expr (fault : Expr.Fault)
  | noCalculator
  | unknownPlaceholder
  | unboundPlaceholder
  deriving DecidableEq, Repr

def Fault.message : Fault → String
  | expr fault => fault.message
  | noCalculator => "no calculator supplied to resolve it"
  | unknownPlaceholder => "unknown placeholder token"
  | unboundPlaceholder => "no value supplied for placeholder"

/-- A text that was asked for a value, and why it has none. -/
structure Error where
  expression : String
  fault : Fault
  deriving DecidableEq, Repr

def Error.message (e : Error) : String :=
  "Cannot evaluate \"" ++ e.expression ++ "\": " ++ e.fault.message

/-- Whether a parameter needs evaluating, that is, is the text of something other than a plain
number. -/
def isSymbolic : Parameter → Bool
  | number _ => false
  | expression text => !Number.isLiteral text.toList

end Parameter

/-- A way to give parameters values. -/
abbrev Resolver := Parameter → Except Parameter.Error Float

/-- The value of a parameter under a resolver; without one, that of a number or literal. -/
def Parameter.resolve (resolver : Option Resolver) (p : Parameter) : Except Parameter.Error Float :=
  match resolver, p with
  | some f, p => f p
  | none, .number x => .ok x
  | none, .expression text =>
      if Number.isLiteral text.toList then .ok (Number.read text.toList)
      else .error ⟨text, .noCalculator⟩

/-- Values of named variables. -/
structure Calculator where
  values : Table String Float
  deriving DecidableEq, Repr

namespace Calculator

/-- The names that have a value without being set. -/
def constant? (name : String) : Option Float :=
  match name with
  | "pi" => some 3.141592653589793
  | "e" => some 2.718281828459045
  | _ => none

def empty : Calculator :=
  ⟨.empty⟩

def ofList (entries : List (String × Float)) : Calculator :=
  ⟨.ofList entries⟩

def set (c : Calculator) (name : String) (value : Float) : Calculator :=
  ⟨c.values.insert name value⟩

def setAll (c : Calculator) (entries : List (String × Float)) : Calculator :=
  ⟨c.values.insertAll entries⟩

def has (c : Calculator) (name : String) : Bool :=
  c.values.contains name

/-- The value of a variable; constants are not variables. -/
def get (c : Calculator) (name : String) : Except Parameter.Error Float :=
  match c.values.get? name with
  | some value => .ok value
  | none => .error ⟨name, .expr (.unset name)⟩

/-- What a name stands for in an expression: its variable, else its constant. -/
def lookup? (c : Calculator) (name : String) : Option Float :=
  c.values.get? name <|> constant? name

def isDefined (c : Calculator) (name : String) : Bool :=
  (c.lookup? name).isSome

def valuation (c : Calculator) (name : String) : Float :=
  (c.lookup? name).getD Number.nan

/-- The value of a parameter. -/
def evaluate (c : Calculator) : Resolver
  | .number x => .ok x
  | .expression text =>
      match Expr.parse c.isDefined text.toList with
      | .ok e => .ok (e.eval c.valuation)
      | .error fault => .error ⟨text, .expr fault⟩

end Calculator

end OpenQasm

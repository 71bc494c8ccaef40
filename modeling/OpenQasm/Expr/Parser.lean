import OpenQasm.Expr.Basic
import OpenQasm.Expr.Token
import OpenQasm.Text.Units

/-!
# Reading expressions

The grammar, with sums and products grouping to the left:

    expr    := term (('+' | '-') term)*
    term    := unary (('*' | '/') unary)*
    unary   := ('+' | '-') unary | power
    power   := primary ('^' unary)?
    primary := number | name | name '(' expr (',' expr)* ')' | '(' expr ')'

The reader goes through the tokens once and keeps the constructs that are not finished yet in a
list of frames, innermost first. It alternates between the places where an operand has to come and
the places after one. So faults are found in the order of the tokens: a name without a value where
it stands, an unknown function at its opening parenthesis.
-/
namespace OpenQasm.Expr

/-- Why a text is not an expression with a value. -/
inductive Fault where
  | stray (c : Char) (position : Nat)
  | empty
  | unexpectedEnd
  | unexpected (token : Token)
  | unclosed
  | unset (name : String)
  | unknownFunction (name : String)
  deriving DecidableEq, Repr

def Fault.message : Fault → String
  | stray c position => "unexpected \"" ++ Text.firstUnit c ++ "\" at " ++ toString position
  | empty => "empty expression"
  | unexpectedEnd => "unexpected end of expression"
  | unexpected token => "unexpected \"" ++ token.text ++ "\""
  | unclosed => "expected \")\""
  | unset name => "variable " ++ name ++ " is not set"
  | unknownFunction name => "unknown function " ++ name

/-- A construct whose last part is still to come. -/
inductive Frame where
  | left (e : Expr) (op : BinaryOp)
  | negate
  | group
  | call (f : Func) (args : List Expr)
  deriving Repr

/-- How tightly a frame holds on to the operand after it; brackets wait for their closing. -/
def Frame.binding : Frame → Nat
  | left _ .pow => 4
  | negate => 3
  | left _ .mul => 2
  | left _ .div => 2
  | left _ .add => 1
  | left _ .sub => 1
  | group => 0
  | call _ _ => 0

/-- The construct completed by its last operand. -/
def Frame.close (frame : Frame) (e : Expr) : Expr :=
  match frame with
  | left l op => .binary op l e
  | negate => .negate e
  | group => e
  | call f args => .call f (args ++ [e])

/-- Complete the innermost frames that bind at least as tightly as `level`. -/
def settle (level : Nat) : List Frame → Expr → List Frame × Expr
  | [], e => ([], e)
  | frame :: frames, e =>
      if level ≤ frame.binding then settle level frames (frame.close e)
      else (frame :: frames, e)

/-- The operator of a symbol that stands between two operands. -/
def Symbol.operator? : Symbol → Option BinaryOp
  | plus => some .add
  | minus => some .sub
  | times => some .mul
  | divide => some .div
  | power => some .pow
  | _ => none

/-- The frames after an operator between `e` and what follows. A power takes the operand just
read; the other operators complete what binds as tightly as they do. -/
def pushOperator (frames : List Frame) (e : Expr) (op : BinaryOp) : List Frame :=
  if op = .pow then Frame.left e op :: frames
  else
    let (frames, e) := settle (Frame.left e op).binding frames e
    Frame.left e op :: frames

mutual

/-- Read on where an operand has to come. `defined` says which names have a value. -/
def operand (defined : String → Bool) (frames : List Frame) :
    List Token → Except Fault Expr
  | [] => .error .unexpectedEnd
  | .number value :: rest => afterOperand defined frames (.number value) rest
  | .name name :: .symbol .opening :: rest =>
      match Func.ofName? name with
      | some f => operand defined (.call f [] :: frames) rest
      | none => .error (.unknownFunction name)
  | .name name :: rest =>
      if defined name then afterOperand defined frames (.variable name) rest
      else .error (.unset name)
  | .symbol .minus :: rest => operand defined (.negate :: frames) rest
  | .symbol .plus :: rest => operand defined frames rest
  | .symbol .opening :: rest => operand defined (.group :: frames) rest
  | .symbol s :: _ => .error (.unexpected (.symbol s))

/-- Read on after the operand `e`. -/
def afterOperand (defined : String → Bool) (frames : List Frame) (e : Expr) :
    List Token → Except Fault Expr
  | [] =>
      match settle 1 frames e with
      | ([], e) => .ok e
      | (_ :: _, _) => .error .unclosed
  | token :: rest =>
      match token with
      | .symbol .closing =>
          match settle 1 frames e with
          | (frame :: frames, e) => afterOperand defined frames (frame.close e) rest
          | ([], _) => .error (.unexpected token)
      | .symbol .comma =>
          match settle 1 frames e with
          | (.call f args :: frames, e) => operand defined (.call f (args ++ [e]) :: frames) rest
          | (_ :: _, _) => .error .unclosed
          | ([], _) => .error (.unexpected token)
      | .symbol s =>
          match s.operator? with
          | some op => operand defined (pushOperator frames e op) rest
          | none =>
              match settle 1 frames e with
              | ([], _) => .error (.unexpected token)
              | (_ :: _, _) => .error .unclosed
      | _ =>
          match settle 1 frames e with
          | ([], _) => .error (.unexpected token)
          | (_ :: _, _) => .error .unclosed

end

/-- The expression that a list of tokens spells. -/
def ofTokens (defined : String → Bool) (tokens : List Token) : Except Fault Expr :=
  if tokens.isEmpty then .error .empty else operand defined [] tokens

/-- The tokens of a text; the position of a stray character is counted from the start. -/
def tokens (cs : List Char) : Except Fault (List Token) :=
  (lex cs).mapError (fun (c, remaining) => .stray c (cs.length - remaining))

/-- The expression that a text spells. -/
def parse (defined : String → Bool) (cs : List Char) : Except Fault Expr :=
  tokens cs >>= ofTokens defined

end OpenQasm.Expr

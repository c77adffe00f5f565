import RetroScript.Syntax.Parser
import RetroScript.Token.Lexer
import RetroScript.Value

/-!
# What can go wrong

Faults are causes; `message` gives each its wording. An error is a fault with its place, or a stop
that ends a run for good.
-/
namespace RetroScript

/-- What an operator finds wrong with its operands. -/
inductive OperandFault where
  | leftNotNumber
  | rightNotNumber
  | divisionByZero
  | leftNotBoolean
  | rightNotBoolean
  | booleanOrder
  | unlike (left right : Value.Kind)
  | incomparable (left : Value.Kind)
  deriving DecidableEq, Repr

def OperandFault.message : OperandFault → String
  | .leftNotNumber => "lhs must be a number"
  | .rightNotNumber => "rhs must be a number"
  | .divisionByZero => "division by zero"
  | .leftNotBoolean => "lhs must be a boolean"
  | .rightNotBoolean => "rhs must be a boolean"
  | .booleanOrder => "booleans only support = and !="
  | .unlike left right => "rhs must be a " ++ left.name ++ " like the lhs, not " ++ right.name
  | .incomparable left => "lhs must be a number, string or boolean, not " ++ left.name

/-- A value of the wrong kind. -/
inductive TypeFault where
  | arrayIndex (found : Value.Kind)
  | mapKey (found : Value.Kind)
  | notContainer (found : Value.Kind)
  | notFunction (shown : String)
  | deleteWhole
  deriving DecidableEq, Repr

def TypeFault.message : TypeFault → String
  | .arrayIndex found => "array index must be a number, not " ++ found.name
  | .mapKey found => "map key must be a string, not " ++ found.name
  | .notContainer found => "array element should refer to array or map, not " ++ found.name
  | .notFunction shown => "function call references non-function value: " ++ shown
  | .deleteWhole => "del expects an array or map element"

/-- A stream that failed. -/
inductive StreamFault where
  | full
  | notUtf8
  deriving DecidableEq, Repr

def StreamFault.message : StreamFault → String
  | .full => "sink full"
  | .notUtf8 => "stream did not contain valid UTF-8"

/-- What a builtin function finds wrong. -/
inductive BuiltinFault where
  | arity (least most received : Nat)
  | argument (index : Nat) (wanted found : Value.Kind)
  | length (found : Value.Kind)
  | keys (found : Value.Kind)
  | videoMode (number : Int)
  | stream (fault : StreamFault)
  deriving DecidableEq, Repr

def BuiltinFault.message : BuiltinFault → String
  | .arity least most received =>
    let range := if least = most then toString least else toString least ++ " to " ++ toString most
    "expects " ++ range ++ " arguments but received " ++ toString received
  | .argument index wanted found =>
    "argument " ++ toString (index + 1) ++ " should be a " ++ wanted.name ++ ", not " ++ found.name
  | .length found => "argument should be an array or a string, not " ++ found.name
  | .keys found => "argument should be a map, not " ++ found.name
  | .videoMode number => "unknown video mode " ++ toString number
  | .stream fault => "i/o error: " ++ fault.message

/-- What a running program can do wrong. -/
inductive Fault where
  | unknownVariable (name : String)
  | unknownFunction (name : String)
  | arityMismatch (name : String) (expected received : Nat)
  | invalidOperands (op : Syntax.Operator) (fault : OperandFault)
  | indexOutOfBounds (index : Int) (length : Nat)
  | type (fault : TypeFault)
  | constAssignment (name : String)
  | assertion (message left right : String)
  | builtin (name : String) (fault : BuiltinFault)
  | noMain
  deriving DecidableEq, Repr

/-- Names consist of letters, digits and underscores, so quoting one needs no escapes. -/
def Fault.message : Fault → String
  | .unknownVariable name => "unknown variable \"" ++ name ++ "\""
  | .unknownFunction name => "unknown function " ++ name ++ "()"
  | .arityMismatch name expected received =>
    "function " ++ name ++ " expects " ++ toString expected ++ " arguments but received " ++
      toString received
  | .invalidOperands op fault => "invalid arguments for " ++ op.symbol ++ ": " ++ fault.message
  | .indexOutOfBounds index length =>
    "index " ++ toString index ++ " out of bounds for length " ++ toString length
  | .type fault => "type error: " ++ fault.message
  | .constAssignment name => "cannot assign to constant " ++ name
  | .assertion message left right =>
    "assertion failure: " ++ message ++ ": " ++ left ++ " != " ++ right
  | .builtin name fault => name ++ "(): " ++ fault.message
  | .noMain => "no main function found"

/-- What ends a run for good. -/
inductive Fatal where
  | stackOverflow (limit : Nat)
  | poisoned
  deriving DecidableEq, Repr

def Fatal.message : Fatal → String
  | .stackOverflow limit => "stack limit of " ++ toString limit ++ " frames exceeded"
  | .poisoned => "interpreter was stopped by an earlier fatal error"

inductive Error where
  | lex (e : Token.LexError)
  | parse (e : Syntax.ParseError)
  | eval (pos : Position) (fault : Fault)
  | fatal (stop : Fatal)
  deriving DecidableEq, Repr

def Error.message : Error → String
  | .lex e => "lex error at " ++ e.pos.text ++ " near '" ++ e.text ++ "'"
  | .parse e => "parse error at " ++ e.pos.text ++ ": " ++ e.fault.message
  | .eval pos fault => pos.text ++ ": " ++ fault.message
  | .fatal stop => "fatal: " ++ stop.message

def Error.isFatal : Error → Bool
  | .fatal _ => true
  | _ => false

/-- Reads a program from its source text. -/
def Syntax.parseSource (source : String) : Except Error Syntax.Program :=
  match Token.lex source with
  | .error e => .error (.lex e)
  | .ok tokens =>
    match Syntax.parse tokens with
    | .error e => .error (.parse e)
    | .ok program => .ok program

end RetroScript

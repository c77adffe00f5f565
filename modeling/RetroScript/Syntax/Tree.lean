import RetroScript.Source.Position

/-!
# Program trees

Every node that can fail when it runs carries the place of the token that reports it. A call has
one list of arguments per pair of parentheses: `f(a)(b)` calls what `f(a)` returns.
-/
namespace RetroScript.Syntax

inductive Operator where
  | pow | mul | div | mod | add | sub
  | eq | ne | lt | le | gt | ge
  | and | or
  deriving DecidableEq, Repr

/-- How an operator is written. -/
def Operator.symbol : Operator → String
  | .pow => "^"
  | .mul => "*"
  | .div => "/"
  | .mod => "%"
  | .add => "+"
  | .sub => "-"
  | .eq => "="
  | .ne => "!="
  | .lt => "<"
  | .le => "<="
  | .gt => ">"
  | .ge => ">="
  | .and => "&&"
  | .or => "||"

mutual

inductive Expr where
  | number (pos : Position) (value : Float)
  | bool (pos : Position) (value : Bool)
  | null (pos : Position)
  | string (pos : Position) (value : String)
  | array (pos : Position) (items : List Expr)
  | map (pos : Position) (entries : List (String × Expr))
  | variable (pos : Position) (name : String)
  | index (pos : Position) (base key : Expr)
  | lambda (pos : Position) (params : List String) (body : List Command)
  | call (pos : Position) (name : String) (args : List Expr) (more : List (List Expr))
  | binary (pos : Position) (op : Operator) (left right : Expr)

inductive Command where
  | remark (pos : Position) (text : String)
  | assign (pos : Position) (name : String) (indexes : List Expr) (value : Expr)
  | delete (pos : Position) (name : String) (indexes : List Expr)
  | result (pos : Position) (value : Expr)
  | branch (pos : Position) (condition : Expr) (yes no : List Command)
  | loop (pos : Position) (condition : Expr) (body : List Command)
  | define (pos : Position) (name : String) (params : List String) (body : List Command)
  | call (pos : Position) (name : String) (args : List Expr) (more : List (List Expr))

end

def Expr.pos : Expr → Position
  | .number pos _ | .bool pos _ | .null pos | .string pos _ | .array pos _ | .map pos _
  | .variable pos _ | .index pos _ _ | .lambda pos _ _ | .call pos _ _ _ | .binary pos _ _ _ => pos

def Command.pos : Command → Position
  | .remark pos _ | .assign pos _ _ _ | .delete pos _ _ | .result pos _ | .branch pos _ _ _
  | .loop pos _ _ | .define pos _ _ _ | .call pos _ _ _ => pos

/-- What stands outside all functions. -/
inductive Item where
  | remark (text : String)
  | const (pos : Position) (name : String) (value : Expr)
  | assign (pos : Position) (name : String) (indexes : List Expr) (value : Expr)
  | define (pos : Position) (name : String) (params : List String) (body : List Command)

structure Program where
  items : List Item

end RetroScript.Syntax

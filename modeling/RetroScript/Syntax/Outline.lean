import RetroScript.Json
import RetroScript.Syntax.Tree

/-! The JSON outline of a program tree: each node is an object with its place and its kind. -/
namespace RetroScript.Syntax

def positionOutline (p : Position) : Json :=
  .object [("line", .natural p.line), ("col", .natural p.column)]

/-- A node: its place and what it is. -/
def node (pos : Position) (kind : Json) : Json :=
  .object [("pos", positionOutline pos), ("kind", kind)]

/-- What is labelled with the name of its kind. -/
def tagged (tag : String) (content : Json) : Json := .object [(tag, content)]

def names (ns : List String) : Json := .list (ns.map .string)

def Operator.outline : Operator → Json
  | .pow => .string "Pow"
  | .mul => .string "Mul"
  | .div => .string "Div"
  | .mod => .string "Mod"
  | .add => .string "Add"
  | .sub => .string "Sub"
  | .eq => .string "Eq"
  | .ne => .string "Ne"
  | .lt => .string "Lt"
  | .le => .string "Le"
  | .gt => .string "Gt"
  | .ge => .string "Ge"
  | .and => .string "And"
  | .or => .string "Or"

/-- A definition, without a label. -/
def definitionOutline (pos : Position) (name : String) (params : List String) (body : Json) : Json :=
  .object [("pos", positionOutline pos), ("name", .string name), ("params", names params), ("body", body)]

/-- The target of an assignment or deletion. -/
def placeOutline (name : String) (indexes : Json) : Json :=
  .object [("name", .string name), ("indexes", indexes)]

/-- An assignment, without a label. -/
def assignmentOutline (pos : Position) (name : String) (indexes value : Json) : Json :=
  .object [("pos", positionOutline pos), ("target", placeOutline name indexes), ("value", value)]

/-- A call, without a label. -/
def callOutline (name : String) (groups : List Json) : Json :=
  .object [("name", .string name), ("groups", .list groups)]

mutual

def Expr.outline : Expr → Json
  | .number pos x => node pos (tagged "Number" (.number x))
  | .bool pos b => node pos (tagged "Bool" (.bool b))
  | .null pos => node pos (.string "Null")
  | .string pos s => node pos (tagged "Str" (.string s))
  | .array pos items => node pos (tagged "Array" (.list (exprOutlines items)))
  | .map pos entries => node pos (tagged "Map" (.list (entryOutlines entries)))
  | .variable pos name => node pos (tagged "Variable" (.string name))
  | .index pos base key => node pos (tagged "Index" (.list [base.outline, key.outline]))
  | .lambda pos params body =>
    node pos (tagged "AnonFun" (.object [("params", names params), ("body", .list (commandOutlines body))]))
  | .call pos name args more =>
    node pos (tagged "Call" (callOutline name (.list (exprOutlines args) :: groupOutlines more)))
  | .binary pos op left right =>
    node pos (tagged "Binary"
      (.object [("op", op.outline), ("left", left.outline), ("right", right.outline)]))

def exprOutlines : List Expr → List Json
  | [] => []
  | e :: es => e.outline :: exprOutlines es

def entryOutlines : List (String × Expr) → List Json
  | [] => []
  | (key, e) :: es => .list [.string key, e.outline] :: entryOutlines es

def groupOutlines : List (List Expr) → List Json
  | [] => []
  | g :: gs => .list (exprOutlines g) :: groupOutlines gs

def Command.outline : Command → Json
  | .remark pos text => node pos (tagged "Remark" (.string text))
  | .assign pos name indexes value =>
    node pos (tagged "Let" (assignmentOutline pos name (.list (exprOutlines indexes)) value.outline))
  | .delete pos name indexes =>
    node pos (tagged "Del" (placeOutline name (.list (exprOutlines indexes))))
  | .result pos value => node pos (tagged "Return" value.outline)
  | .branch pos condition yes no =>
    node pos (tagged "If" (.object
      [("cond", condition.outline), ("then_body", .list (commandOutlines yes)),
       ("else_body", .list (commandOutlines no))]))
  | .loop pos condition body =>
    node pos (tagged "While" (.object
      [("cond", condition.outline), ("body", .list (commandOutlines body))]))
  | .define pos name params body =>
    node pos (tagged "Fun" (definitionOutline pos name params (.list (commandOutlines body))))
  | .call pos name args more =>
    node pos (tagged "Call" (callOutline name (.list (exprOutlines args) :: groupOutlines more)))

def commandOutlines : List Command → List Json
  | [] => []
  | c :: cs => c.outline :: commandOutlines cs

end

def Item.outline : Item → Json
  | .remark text => tagged "Remark" (.string text)
  | .const pos name value =>
    tagged "Const" (.object [("pos", positionOutline pos), ("name", .string name), ("value", value.outline)])
  | .assign pos name indexes value =>
    tagged "Let" (assignmentOutline pos name (.list (exprOutlines indexes)) value.outline)
  | .define pos name params body =>
    tagged "Fun" (definitionOutline pos name params (.list (commandOutlines body)))

def Program.outline (p : Program) : Json := .object [("items", .list (p.items.map Item.outline))]

end RetroScript.Syntax

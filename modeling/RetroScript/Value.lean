import RetroScript.Dict
import RetroScript.Syntax.Tree

/-!
# Values and the heap

Arrays, maps and functions are shared: a value only refers to them, and the heap holds what is
referred to.
-/
namespace RetroScript

inductive Value where
  | number (x : Float)
  | bool (b : Bool)
  | null
  | string (s : String)
  | array (ref : Nat)
  | map (ref : Nat)
  | closure (ref : Nat)
  deriving DecidableEq, Repr, Inhabited

namespace Value

inductive Kind where
  | number | boolean | null | string | array | map | function
  deriving DecidableEq, Repr

/-- The word that messages use for a kind. -/
def Kind.name : Kind → String
  | .number => "number"
  | .boolean => "boolean"
  | .null => "null"
  | .string => "string"
  | .array => "array"
  | .map => "map"
  | .function => "function"

def kind : Value → Kind
  | .number _ => .number
  | .bool _ => .boolean
  | .null => .null
  | .string _ => .string
  | .array _ => .array
  | .map _ => .map
  | .closure _ => .function

end Value

/-- The index of a scope in its arena. -/
abbrev ScopeId := Nat

/-- A function together with the scope it was made in. -/
structure Closure where
  name : String
  params : List String
  body : List Syntax.Command
  scope : ScopeId
  deriving Inhabited

namespace Closure

/-- The name and the parameters. -/
def signature (c : Closure) : String := c.name ++ "(" ++ ",".intercalate c.params ++ ")"

/-- The signature and the scope. -/
def description (c : Closure) : String := c.signature ++ " in #" ++ toString c.scope

end Closure

/-- What values refer to. -/
structure Heap where
  arrays : Array (Array Value) := #[]
  maps : Array (Dict Value) := #[]
  closures : Array Closure := #[]
  deriving Inhabited

namespace Heap

def array (h : Heap) (ref : Nat) : Array Value := h.arrays.getD ref #[]

def map (h : Heap) (ref : Nat) : Dict Value := h.maps.getD ref Dict.empty

def closure (h : Heap) (ref : Nat) : Closure := h.closures.getD ref default

/-- The number of arrays and maps. -/
def containers (h : Heap) : Nat := h.arrays.size + h.maps.size

def newArray (h : Heap) (items : Array Value) : Value × Heap :=
  (.array h.arrays.size, { h with arrays := h.arrays.push items })

def newMap (h : Heap) (entries : Dict Value) : Value × Heap :=
  (.map h.maps.size, { h with maps := h.maps.push entries })

def newClosure (h : Heap) (c : Closure) : Nat × Heap :=
  (h.closures.size, { h with closures := h.closures.push c })

def modifyArray (h : Heap) (ref : Nat) (f : Array Value → Array Value) : Heap :=
  { h with arrays := h.arrays.modify ref f }

def modifyMap (h : Heap) (ref : Nat) (f : Dict Value → Dict Value) : Heap :=
  { h with maps := h.maps.modify ref f }

end Heap

end RetroScript

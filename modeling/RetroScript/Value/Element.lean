import RetroScript.Fault
import RetroScript.Number.Binary

/-!
# Elements of containers

Reading, storing and removing `base[key]`. An array takes the integer part of a number as index and
may grow by one at its end; a map takes any string.
-/
namespace RetroScript.Heap

/-- A key as an array index. -/
def arrayIndex (key : Value) : Except Fault Int :=
  match key with
  | .number x => .ok (Number.truncate x)
  | other => .error (.type (.arrayIndex other.kind))

/-- A key as a map key. -/
def mapKey (key : Value) : Except Fault String :=
  match key with
  | .string s => .ok s
  | other => .error (.type (.mapKey other.kind))

/-- An index that is at least zero and below `bound`, in an array of `length` items. -/
def checkIndex (bound length : Nat) (i : Int) : Except Fault Nat :=
  if 0 ≤ i ∧ i < bound then .ok i.toNat else .error (.indexOutOfBounds i length)

/-- Where an element is: in an array at an index, or in a map under a name. -/
inductive Place where
  | item (ref index : Nat)
  | entry (ref : Nat) (name : String)
  deriving DecidableEq, Repr

/-- The place of `base[key]`. An array has `room` places after its last item. -/
def place (h : Heap) (room : Nat) (base key : Value) : Except Fault Place :=
  match base with
  | .array ref => do
    let length := (h.array ref).size
    let i ← checkIndex (length + room) length (← arrayIndex key)
    return .item ref i
  | .map ref => do
    let name ← mapKey key
    return .entry ref name
  | other => .error (.type (.notContainer other.kind))

/-- The element at a place; null where a map has none. -/
def get (h : Heap) : Place → Value
  | .item ref i => (h.array ref).getD i .null
  | .entry ref name => ((h.map ref).find? name).getD .null

/-- The heap with a value at a place. -/
def put (h : Heap) (p : Place) (v : Value) : Heap :=
  match p with
  | .item ref i =>
    h.modifyArray ref fun items => if i = items.size then items.push v else items.setIfInBounds i v
  | .entry ref name => h.modifyMap ref (·.insert name v)

/-- The heap without the element at a place. -/
def erase (h : Heap) : Place → Heap
  | .item ref i => h.modifyArray ref (·.eraseIdxIfInBounds i)
  | .entry ref name => h.modifyMap ref (·.erase name)

/-- The element of `base` at `key`. -/
def read (h : Heap) (base key : Value) : Except Fault Value := (h.place 0 base key).map h.get

/-- The heap with `value` stored in `base` at `key`. -/
def store (h : Heap) (base key value : Value) : Except Fault Heap :=
  (h.place 1 base key).map (h.put · value)

/-- The heap without the element of `base` at `key`. -/
def remove (h : Heap) (base key : Value) : Except Fault Heap := (h.place 0 base key).map h.erase

end RetroScript.Heap

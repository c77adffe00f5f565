import RetroScript.Value

/-!
# Scopes

Every call has a scope of its own, whose parent is the scope that its function was made in. Scopes
live in an arena and are named by their index; freed slots are reused, the last one freed first.
-/
namespace RetroScript

structure Scope where
  /-- The function whose call made the scope. -/
  function : String
  vars : Dict Value := Dict.empty
  /-- Functions defined here. -/
  defs : Dict Nat := Dict.empty
  parent : Option ScopeId
  /-- Whether some function was made here, so that the scope may outlive its call. -/
  captured : Bool := false
  deriving Inhabited

/-- A scope without content, as it is kept for reuse. -/
def Scope.reset (s : Scope) : Scope :=
  { s with vars := Dict.empty, defs := Dict.empty, parent := none, captured := false }

/-- What a name stands for in one scope: a variable before a definition. -/
def Scope.lookup (s : Scope) (name : String) : Option Value :=
  (s.vars.find? name).or ((s.defs.find? name).map .closure)

/-- The function that a name calls in one scope: a definition before a variable. -/
def Scope.callable (s : Scope) (name : String) : Option Nat :=
  match s.defs.find? name with
  | some ref => some ref
  | none =>
    match s.vars.find? name with
    | some (.closure ref) => some ref
    | _ => none

structure Arena where
  slots : Array Scope := #[{ function := "global", parent := none }]
  /-- Slots for reuse, the next one first. -/
  free : List ScopeId := []

namespace Arena

/-- The scope outside all functions. -/
def globalScope : ScopeId := 0

def get (a : Arena) (id : ScopeId) : Scope := a.slots.getD id default

def modify (a : Arena) (id : ScopeId) (f : Scope → Scope) : Arena :=
  { a with slots := a.slots.modify id f }

/-- The number of scopes in use. -/
def live (a : Arena) : Nat := a.slots.size - a.free.length

/-- A new empty scope for a call of `function`. -/
def push (a : Arena) (function : String) (parent : ScopeId) : ScopeId × Arena :=
  match a.free with
  | id :: free =>
    (id, { slots := a.slots.modify id fun s => { s with function, parent := some parent }, free })
  | [] => (a.slots.size, { a with slots := a.slots.push { function, parent := some parent } })

/-- Notes that a function was made in a scope. -/
def capture (a : Arena) (id : ScopeId) : Arena := a.modify id fun s => { s with captured := true }

/-- Frees a scope at the end of its call, unless it is captured or global; tells whether it did. -/
def release (a : Arena) (id : ScopeId) : Bool × Arena :=
  if id = globalScope ∨ (a.get id).captured then (false, a)
  else (true, { slots := a.slots.modify id Scope.reset, free := id :: a.free })

def setVar (a : Arena) (id : ScopeId) (name : String) (v : Value) : Arena :=
  a.modify id fun s => { s with vars := s.vars.insert name v }

def setDef (a : Arena) (id : ScopeId) (name : String) (ref : Nat) : Arena :=
  a.modify id fun s => { s with defs := s.defs.insert name ref }

/-- A scope and its ancestors, innermost first, at most `n` of them. -/
def chainUpTo (a : Arena) : Nat → ScopeId → List (ScopeId × Scope)
  | 0, _ => []
  | n + 1, id =>
    let s := a.get id
    (id, s) :: match s.parent with
      | some parent => a.chainUpTo n parent
      | none => []

/-- A scope and its ancestors, innermost first; no chain is longer than the arena. -/
def chain (a : Arena) (id : ScopeId) : List (ScopeId × Scope) := a.chainUpTo a.slots.size id

/-- What a name stands for. -/
def lookup (a : Arena) (id : ScopeId) (name : String) : Option Value :=
  (a.chain id).findSome? fun (_, s) => s.lookup name

/-- The nearest scope with a variable of this name. -/
def findBinding (a : Arena) (id : ScopeId) (name : String) : Option ScopeId :=
  ((a.chain id).find? fun (_, s) => s.vars.contains name).map Prod.fst

/-- The function that a name calls. A variable that holds no function does not end the search. -/
def findClosure (a : Arena) (id : ScopeId) (name : String) : Option Nat :=
  (a.chain id).findSome? fun (_, s) => s.callable name

end Arena

end RetroScript

import RetroScript.Scope

/-!
# Collecting dead scopes

Scopes, arrays and maps are the nodes of a graph. `mark` walks it from what is in use, and `collect`
frees every scope that was not met.
-/
namespace RetroScript

inductive Node where
  | scope (id : ScopeId)
  | array (ref : Nat)
  | map (ref : Nat)
  deriving DecidableEq, Repr

/-- The node that a value leads to, if any. -/
def Value.nodes (h : Heap) : Value → List Node
  | .array ref => [.array ref]
  | .map ref => [.map ref]
  | .closure ref => [.scope (h.closure ref).scope]
  | _ => []

/-- The nodes that a scope leads to: its parent, and what its variables and definitions lead to. -/
def Scope.nodes (h : Heap) (s : Scope) : List Node :=
  s.parent.toList.map .scope ++
    s.vars.values.flatMap (·.nodes h) ++
    s.defs.values.map fun ref => .scope (h.closure ref).scope

/-- The nodes one step away. -/
def Node.successors (a : Arena) (h : Heap) : Node → List Node
  | .scope id => (a.get id).nodes h
  | .array ref => (h.array ref).toList.flatMap (·.nodes h)
  | .map ref => (h.map ref).values.flatMap (·.nodes h)

/-! ### Marks -/

/-- One flag for each node. -/
structure Marks where
  scopes : Array Bool
  arrays : Array Bool
  maps : Array Bool

namespace Marks

def none (a : Arena) (h : Heap) : Marks where
  scopes := Array.replicate a.slots.size false
  arrays := Array.replicate h.arrays.size false
  maps := Array.replicate h.maps.size false

/-- Whether a node is marked; a node outside the graph needs no mark. -/
def has (m : Marks) : Node → Bool
  | .scope id => m.scopes.getD id true
  | .array ref => m.arrays.getD ref true
  | .map ref => m.maps.getD ref true

def add (m : Marks) : Node → Marks
  | .scope id => { m with scopes := m.scopes.setIfInBounds id true }
  | .array ref => { m with arrays := m.arrays.setIfInBounds ref true }
  | .map ref => { m with maps := m.maps.setIfInBounds ref true }

/-- The number of nodes without a mark. -/
def unmarked (m : Marks) : Nat := m.scopes.count false + m.arrays.count false + m.maps.count false

theorem count_set_true (flags : Array Bool) (i : Nat) (clear : flags.getD i true = false) :
    (flags.setIfInBounds i true).count false < flags.count false := by
  have inside : i < flags.size := by
    apply Decidable.byContradiction
    intro outside
    simp [Array.getD, outside] at clear
  have found : flags[i] = false := by simpa [Array.getD, inside] using clear
  have positive : 0 < flags.count false := Array.count_pos_iff.mpr (found ▸ Array.getElem_mem inside)
  rw [Array.setIfInBounds_def, dif_pos inside, Array.count_set inside]
  have differs : ((true == false) = true) = False := by decide
  simp only [found, beq_self_eq_true, if_true, differs, if_false]
  omega

theorem unmarked_add (m : Marks) (n : Node) (clear : m.has n = false) :
    (m.add n).unmarked < m.unmarked := by
  cases n with
  | scope id => have := count_set_true m.scopes id clear; simp only [add, unmarked]; omega
  | array ref => have := count_set_true m.arrays ref clear; simp only [add, unmarked]; omega
  | map ref => have := count_set_true m.maps ref clear; simp only [add, unmarked]; omega

end Marks

/-- Marks everything that `work` leads to. -/
def mark (a : Arena) (h : Heap) (marks : Marks) (work : List Node) : Marks :=
  match work with
  | [] => marks
  | n :: work =>
    if _clear : marks.has n = false then mark a h (marks.add n) (n.successors a h ++ work)
    else mark a h marks work
termination_by (marks.unmarked, work.length)
decreasing_by
  · exact Prod.Lex.left _ _ (Marks.unmarked_add marks n _clear)
  · exact Prod.Lex.right _ (by simp)

namespace Arena

/-- One flag for each slot: whether it is kept for reuse. -/
def freeFlags (a : Arena) : Array Bool :=
  a.free.foldl (fun flags id => flags.setIfInBounds id true) (Array.replicate a.slots.size false)

/-- The marks after a walk from the global scope, the scopes `roots` and the values `held`. -/
def reached (a : Arena) (h : Heap) (roots : List ScopeId) (held : List Value) : Marks :=
  mark a h (Marks.none a h)
    (.scope globalScope :: roots.map .scope ++ held.flatMap (·.nodes h))

/-- Frees every scope that cannot be reached, in ascending order; tells how many. -/
def collect (a : Arena) (h : Heap) (roots : List ScopeId) (held : List Value) : Nat × Arena :=
  let marks := (a.reached h roots held).scopes
  let free := a.freeFlags
  let isDead (id : ScopeId) : Bool := !free.getD id true && !marks.getD id true
  let dead := (List.range a.slots.size).filter isDead
  (dead.length,
    { slots := a.slots.mapIdx fun id s => if isDead id then s.reset else s
      free := dead.reverse ++ a.free })

end Arena

end RetroScript

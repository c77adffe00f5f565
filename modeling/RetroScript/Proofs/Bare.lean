import RetroScript.Proofs.Reports
import RetroScript.Proofs.Trees

/-!
# Interpreters without remarks

`bare` takes remarks out of all code that an interpreter holds, and with them all that a remark changes:
the place of the command being run, the places of calls, and what is reported of them. Whatever an
interpreter does commutes with it.
-/

namespace RetroScript

open Syntax (viewBlock viewExprs viewEntries viewGroups)

/-! ### Code -/

namespace Syntax

theorem bare_bare (e : Expr) : (e.view bare).view bare = e.view bare := view_view bare bare e

theorem bareExprs_bare (es : List Expr) : viewExprs bare (viewExprs bare es) = viewExprs bare es :=
  viewExprs_view bare bare es

theorem bareEntries_bare (es : List (String × Expr)) :
    viewEntries bare (viewEntries bare es) = viewEntries bare es :=
  viewEntries_view bare bare es

theorem bareGroups_bare (gs : List (List Expr)) :
    viewGroups bare (viewGroups bare gs) = viewGroups bare gs :=
  viewGroups_view bare bare gs

theorem bareBlock_bare (cs : List Command) : viewBlock bare (viewBlock bare cs) = viewBlock bare cs :=
  viewBlock_view bare bare cs

/-- Items without remarks. -/
def bareItems : List Item → List Item
  | [] => []
  | .remark _ :: rest => bareItems rest
  | item :: rest => item.view bare :: bareItems rest

theorem bareItems_bare (items : List Item) : bareItems (bareItems items) = bareItems items := by
  induction items with
  | nil => rfl
  | cons item rest ih =>
    cases item with
    | remark text => exact ih
    | _ => simp only [bareItems, Item.view, bare_bare, bareExprs_bare, bareBlock_bare, place_bare, ih]

end Syntax

/-! ### Functions -/

/-- A function without the remarks in its body. -/
def Closure.bare (c : Closure) : Closure := { c with body := viewBlock Syntax.bare c.body }

def Heap.bare (h : Heap) : Heap := { h with closures := h.closures.map Closure.bare }

namespace Heap

variable (h : Heap)

theorem bare_bare : h.bare.bare = h.bare := by
  have twice : Closure.bare ∘ Closure.bare = Closure.bare := by
    funext c
    simp only [Function.comp, Closure.bare, Syntax.bareBlock_bare]
  simp only [bare, Array.map_map, twice]

end Heap

/-! ### Collections -/

def Frame.bare (f : Frame) : Frame := { f with pos := .none }

/-- An interpreter without remarks, without the places that they change, and without reports. -/
def Interpreter.bare (it : Interpreter) : Interpreter :=
  { it with heap := it.heap.bare, diag := {}, frames := it.frames.map Frame.bare, pos := .none }

namespace Interpreter

variable (it : Interpreter)

theorem bare_bare : it.bare.bare = it.bare := by
  have twice : Frame.bare ∘ Frame.bare = Frame.bare := rfl
  simp only [bare, Heap.bare_bare, Array.map_map, twice]

end Interpreter

/-! ### Builtins -/

namespace Builtin

variable (it : Interpreter)

end Builtin

end RetroScript

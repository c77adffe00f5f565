import RetroScript.Random
import RetroScript.Scope.Collector
import RetroScript.Stream
import RetroScript.Value.Display
import RetroScript.Video.Memory

/-!
# The interpreter's state

What lasts from one command to the next: constants, scopes, the heap, the stack of calls, the
streams and the video memory. `collect` frees scopes that nothing in this state, and no value that
is held elsewhere, can reach.
-/
namespace RetroScript

/-- A call in progress. -/
structure Frame where
  /-- Where the call stands. -/
  pos : Position
  function : String
  /-- The scope that is active again after the call. -/
  caller : ScopeId

structure Interpreter where
  /-- The number of frames that a call may find on the stack. -/
  limit : Nat
  random : Generator
  input : List UInt8 := []
  out : Sink := {}
  diag : Sink := {}
  video : Video.Memory := {}
  consts : Dict Value := Dict.empty
  heap : Heap := {}
  arena : Arena := {}
  active : ScopeId := Arena.globalScope
  /-- Calls in progress, innermost last. -/
  frames : Array Frame := #[]
  /-- The place of the command being run. -/
  pos : Position := Position.none
  /-- Anonymous functions made so far. -/
  lambdas : Nat := 0
  /-- Whether a fatal error has ended all calls for good. -/
  poisoned : Bool := false
  /-- Captured scopes left behind by calls since the last collection. -/
  retained : Nat := 0
  /-- The number of such scopes that starts a collection. -/
  threshold : Nat := 256
  /-- Values that the host holds, by slot. -/
  kept : List (Nat × Value) := []

namespace Interpreter

/-- The least threshold. -/
def leastThreshold : Nat := 256

/-! ### Names -/

/-- What a name stands for: a constant, else what the active scope knows. -/
def lookup (it : Interpreter) (name : String) : Except Fault Value :=
  match (it.consts.find? name).or (it.arena.lookup it.active name) with
  | some v => .ok v
  | none => .error (.unknownVariable name)

/-- Gives a variable a value: in the nearest scope that has it, else in the active scope. -/
def assign (it : Interpreter) (name : String) (v : Value) : Interpreter :=
  let target := (it.arena.findBinding it.active name).getD it.active
  { it with arena := it.arena.setVar target name v }

/-- A new function over the active scope. -/
def makeClosure (it : Interpreter) (name : String) (params : List String)
    (body : List Syntax.Command) : Nat × Interpreter :=
  let (ref, heap) := it.heap.newClosure ⟨name, params, body, it.active⟩
  (ref, { it with heap, arena := it.arena.capture it.active })

/-- Defines a function in the active scope. -/
def define (it : Interpreter) (name : String) (params : List String) (body : List Syntax.Command) :
    Interpreter :=
  let (ref, it) := it.makeClosure name params body
  { it with arena := it.arena.setDef it.active name ref }

/-- An anonymous function; they are numbered. -/
def makeLambda (it : Interpreter) (params : List String) (body : List Syntax.Command) :
    Value × Interpreter :=
  let (ref, it) := it.makeClosure ("_anon_" ++ toString it.lambdas) params body
  (.closure ref, { it with lambdas := it.lambdas + 1 })

/-! ### Collection -/

/-- The scopes that calls in progress need. -/
def roots (it : Interpreter) : List ScopeId := it.active :: it.frames.toList.map (·.caller)

/-- Values outside the scopes: constants and what the host holds. -/
def outside (it : Interpreter) : List Value := it.consts.values ++ it.kept.map Prod.snd

/-- Frees the scopes that cannot be reached while `held` is in use; tells how many. -/
def collect (it : Interpreter) (held : List Value) : Nat × Interpreter :=
  let (freed, arena) := it.arena.collect it.heap it.roots (held ++ it.outside)
  (freed, { it with arena, retained := 0, threshold := max leastThreshold arena.live })

/-! ### Calls -/

/-- The interpreter inside a call of `c`: a new scope with the arguments, and a new frame. -/
def enter (it : Interpreter) (c : Closure) (args : List Value) (pos : Position) :
    ScopeId × Interpreter :=
  let (scope, arena) := it.arena.push c.name c.scope
  let arena := (c.params.zip args).foldl (fun a (name, v) => a.setVar scope name v) arena
  (scope, { it with
    arena
    active := scope
    frames := it.frames.push ⟨pos, c.name, it.active⟩ })

/-- The interpreter after a call whose scope was `scope`: back in the caller's scope, with one frame
less. A captured scope is left behind. -/
def leave (it : Interpreter) (scope : ScopeId) : Interpreter :=
  let caller := (it.frames.back?.map (·.caller)).getD it.active
  let (recycled, arena) := it.arena.release scope
  { it with
    arena
    active := caller
    frames := it.frames.pop
    retained := if recycled then it.retained else it.retained + 1 }

/-- Whether enough scopes have been left behind for a collection. -/
def isDue (it : Interpreter) : Bool := it.threshold ≤ it.retained

/-! ### Reports -/

def indent (depth : Nat) : String := String.ofList (List.replicate (2 * (depth + 1)) ' ')

def varsText (h : Heap) (vars : Dict Value) : String :=
  "\x7b" ++ ", ".intercalate (vars.sorted.map fun e => e.1 ++ "=" ++ e.2.text h) ++ "\x7d"

def defsText (defs : Dict Nat) : String :=
  "[" ++ ", ".intercalate (defs.sortedNames.map fun name => "\"" ++ name ++ "\"") ++ "]"

def constText (h : Heap) (e : String × Value) : String := "  " ++ e.1 ++ "=" ++ e.2.text h ++ "\n"

def scopeText (h : Heap) (depth : Nat) (id : ScopeId) (s : Scope) : String :=
  "-----------------\n" ++
  indent depth ++ "Function: " ++ s.function ++ " #" ++ toString id ++ "\n" ++
  indent depth ++ "Vars: " ++ varsText h s.vars ++ "\n" ++
  indent depth ++ "Defs: " ++ defsText s.defs ++ "\n"

def frameText (it : Interpreter) (depth : Nat) (f : Frame) : String :=
  indent depth ++ f.function ++ " at " ++ f.pos.text ++
    " Vars=" ++ varsText it.heap (it.arena.get f.caller).vars ++ "\n"

def ruler : String := "------------------------------------\n"

/-- A message with the constants, the chain of scopes, and the stack of calls. -/
def report (it : Interpreter) (message : String) : String :=
  message ++ "\nConstants:\n" ++
  String.join (it.consts.sorted.map (constText it.heap)) ++
  "Closures:\n" ++
  String.join ((it.arena.chain it.active).mapIdx fun i (id, s) => scopeText it.heap i id s) ++
  ruler ++ "Runtime Call Stack:\n" ++
  String.join (it.frames.toList.mapIdx it.frameText) ++
  ruler ++ "Currently: " ++ it.pos.text ++ "\n"

/-- Writes a report, and tells whether all of it was written. -/
def dump (it : Interpreter) (message : String) : Bool × Interpreter :=
  let (fits, diag) := it.diag.write (it.report message)
  (fits, { it with diag })

end Interpreter

end RetroScript

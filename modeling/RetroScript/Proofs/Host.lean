import RetroScript.Session

/-!
# Sessions of a host

A host makes one request after another of one interpreter. `Reached` says which states of the machine
that can lead to, inside a request as well as between two of them, and `serve` is what the host sees.
-/

namespace RetroScript

/-- The fault of a dump that does not fit. -/
def Fault.refusedDump : Fault := .builtin Builtin.debug.name (.stream .full)

namespace Machine

/-- The value that a control hands over. -/
def Control.held : Control → List Value
  | .give v => [v]
  | .finish result => result.toList
  | _ => []

/-- The end of a dump by the host, which fails if it is cut off. -/
def Control.ofDump (fits : Bool) : Control :=
  if fits then .finish none else .fail Position.none .refusedDump

theorem Control.held_ofDump (fits : Bool) : (Control.ofDump fits).held = [] := by
  cases fits <;> rfl

/-- The values that the machine holds outside the interpreter. -/
def State.held (s : State) : List Value := s.control.held ++ heldBy s.work

theorem forall_heldBy_cons {P : Value → Prop} {pending : Pending} {work : List Pending} :
    (∀ v ∈ heldBy (pending :: work), P v) ↔
      (∀ v ∈ pending.held, P v) ∧ ∀ v ∈ heldBy work, P v := by
  unfold heldBy
  rw [List.flatMap_cons, List.forall_mem_append]

/-- What every step preserves holds at the end of a run. -/
theorem run_ends {P : State → Prop} (preserved : ∀ s, P s → P (step s)) {steps : Nat} {s : State}
    {result : Except Error Value} {it : Interpreter} (ran : run steps s = some (result, it))
    (start : P s) : ∃ last, P last ∧ last.outcome? = some result ∧ last.it = it := by
  induction steps generalizing s with
  | zero => cases ran
  | succ steps ih =>
    unfold run at ran
    split at ran
    · next ended =>
      cases ran
      exact ⟨s, start, ended, rfl⟩
    · exact ih ran (preserved s start)

end Machine

namespace Host

open Machine (State)

/-- A value as a host writes it: new containers, and values that it holds or asks for. -/
inductive Given where
  | null
  | bool (b : Bool)
  | number (x : Float)
  | string (s : String)
  | array (items : List Given)
  | map (entries : List (String × Given))
  | slot (k : Nat)
  | global (name : String)
  | constant (name : String)

mutual

/-- The value that is meant, and the heap with its new containers. -/
def Given.build (it : Interpreter) (h : Heap) : Given → Value × Heap
  | .null => (.null, h)
  | .bool b => (.bool b, h)
  | .number x => (.number x, h)
  | .string s => (.string s, h)
  | .array items =>
    let (vs, h) := buildAll it h items
    h.newArray vs.toArray
  | .map entries =>
    let (d, h) := buildEntries it h Dict.empty entries
    h.newMap d
  | .slot k => ((it.kept? k).getD .null, h)
  | .global name => ((it.global? name).getD .null, h)
  | .constant name => ((it.constant? name).getD .null, h)

def buildAll (it : Interpreter) (h : Heap) : List Given → List Value × Heap
  | [] => ([], h)
  | g :: gs =>
    let (v, h) := g.build it h
    let (vs, h) := buildAll it h gs
    (v :: vs, h)

def buildEntries (it : Interpreter) (h : Heap) (done : Dict Value) :
    List (String × Given) → Dict Value × Heap
  | [] => (done, h)
  | (name, g) :: es =>
    let (v, h) := g.build it h
    buildEntries it h (done.insert name v) es

end

inductive Request where
  | load (program : Syntax.Program)
  | run
  | call (name : String) (args : List Given)
  | value (g : Given)
  | drop (slot : Nat)
  | collect
  | dump (message : String)

/-- The machine at the start of a request. -/
def Request.start (it : Interpreter) : Request → State
  | .load program => Machine.loading it program
  | .run => Machine.calling it "main" []
  | .call name args =>
    let (vs, heap) := buildAll it it.heap args
    Machine.calling { it with heap } name vs
  | .value g =>
    let (v, heap) := g.build it it.heap
    ⟨{ it with heap }, .give v, []⟩
  | .drop slot => ⟨it.drop slot, .finish none, []⟩
  | .collect => ⟨it.collectGarbage.2, .finish none, []⟩
  | .dump message =>
    let (fits, it) := it.dump message
    ⟨it, .ofDump fits, []⟩

/-- Keeps the value of a request in a slot, if a slot is given. -/
def settle (it : Interpreter) (slot : Option Nat) (result : Except Error Value) : Interpreter :=
  match slot, result with
  | some k, .ok v => it.keep k v
  | _, _ => it

/-- The states that a session can lead to. The host takes its turn when a request has ended. -/
inductive Reached (config : Config) (streams : Streams) : State → Prop where
  | new : Reached config streams ⟨.new config streams, .finish none, []⟩
  | step {s : State} (before : Reached config streams s) : Reached config streams (Machine.step s)
  | turn {s : State} {result : Except Error Value} (before : Reached config streams s)
      (ended : s.outcome? = some result) (slot : Option Nat) (request : Request) :
      Reached config streams (request.start (settle s.it slot result))

/-! ### What a host sees -/

/-- A request, and the slot that its value is kept in; without a slot the value is dropped. -/
structure Turn where
  request : Request
  slot : Option Nat := none

/-- Whether a turn only collects. -/
def Turn.isCollect : Turn → Bool
  | ⟨.collect, none⟩ => true
  | _ => false

/-- A request taken to its end: what it comes to, and the interpreter after it. -/
def Turn.perform (steps : Nat) (it : Interpreter) (t : Turn) : Option Interpreter.Outcome :=
  (Machine.run steps (t.request.start it)).map fun (result, it) => (result, settle it t.slot result)

/-- What a host sees of a request: the kind and the text of its value, or its error; the number of
calls in progress; and all that has been written. -/
structure Answer where
  result : Except Error (Value.Kind × String)
  depth : Nat
  out : ByteArray

def Answer.of (o : Interpreter.Outcome) : Answer where
  result := o.1.map fun v => (v.kind, v.text o.2.heap)
  depth := o.2.callDepth
  out := o.2.out.bytes

/-- The answers to a list of requests, up to one that does not end, and the interpreter after the last
answer. Collections are not answered. -/
def serve (steps : Nat) (it : Interpreter) : List Turn → List Answer × Interpreter
  | [] => ([], it)
  | t :: ts =>
    match t.perform steps it with
    | none => ([], it)
    | some o =>
      let (answers, last) := serve steps o.2 ts
      (if t.isCollect then answers else Answer.of o :: answers, last)

end Host

end RetroScript

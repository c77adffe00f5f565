import RetroScript.Machine.Builtin
import RetroScript.Value.Element
import RetroScript.Value.Operation

/-!
# Running programs

A machine has a control, which is what it does next, and a list of pending work, innermost first.
Pending work holds the values that have been computed and are still needed; they are what a
collection must keep besides the interpreter's own state.
-/
namespace RetroScript.Machine

open Syntax (Expr Command Item Operator)

/-- What is done with a list of values once all of them are there. -/
inductive Use where
  /-- They are the items of a new array. -/
  | array
  /-- They are arguments for the function called `name`; `more` follow for its result. -/
  | invoke (pos : Position) (name : String) (more : List (List Expr))
  /-- They are arguments for `callee`; `more` follow for its result. -/
  | apply (pos : Position) (callee : Value) (more : List (List Expr))

/-- What is done with an element once its container and its key are there. -/
inductive Touch where
  | store (value : Value)
  | remove

/-- Work that waits for a value or for the end of a block. -/
inductive Pending where
  /-- Waits for a left operand. -/
  | operand (pos : Position) (op : Operator) (right : Expr)
  /-- Waits for a right operand. -/
  | operate (pos : Position) (op : Operator) (left : Value)
  /-- Waits for the base of an index. -/
  | subscript (pos : Position) (key : Expr)
  /-- Waits for the key of an index. -/
  | select (pos : Position) (base : Value)
  /-- Waits for the next value of a list; `done` has the values so far, last one first. -/
  | values (done : List Value) (rest : List Expr) (use : Use)
  /-- Waits for the value of a map entry. -/
  | entries (done : Dict Value) (name : String) (rest : List (String × Expr))
  /-- Waits for the result of a call that further arguments follow. -/
  | groups (pos : Position) (more : List (List Expr))
  /-- Waits for the value of an assignment. -/
  | assign (pos : Position) (name : String) (indexes : List Expr)
  /-- Waits for a key into `container`; `rest` are the keys after it. -/
  | reach (pos : Position) (container : Value) (rest : List Expr) (touch : Touch)
  /-- Waits for the condition of a branch. -/
  | branch (yes no : List Command)
  /-- Waits for the condition of a loop. -/
  | test (condition : Expr) (body : List Command)
  /-- Waits for a value that nobody needs. -/
  | discard
  /-- Waits for the value that a block returns. -/
  | result
  /-- Waits for the end of a nested block. -/
  | commands (rest : List Command)
  /-- Waits for the end of a loop's body. -/
  | again (condition : Expr) (body : List Command)
  /-- Waits for the end of a call of `callee` in `scope`. -/
  | call (callee : Nat) (scope : ScopeId)
  /-- Waits for the value of a constant. -/
  | constant (name : String)
  /-- Waits for the end of a program's item. -/
  | items (rest : List Item)
  /-- Waits for a program's constants and assignments. -/
  | functions (items : List Item)

/-- The values that a use needs. -/
def Use.held : Use → List Value
  | .apply _ callee _ => [callee]
  | _ => []

def Touch.held : Touch → List Value
  | .store value => [value]
  | .remove => []

/-- The values that pending work needs. -/
def Pending.held : Pending → List Value
  | .operate _ _ left => [left]
  | .select _ base => [base]
  | .values done _ use => done ++ use.held
  | .entries done _ _ => done.values
  | .reach _ container _ touch => container :: touch.held
  | .call callee _ => [.closure callee]
  | _ => []

/-- The values that all pending work needs. -/
def heldBy (work : List Pending) : List Value := work.flatMap Pending.held

inductive Control where
  /-- Evaluate the constants and assignments of a program. -/
  | load (items : List Item)
  /-- Evaluate an expression. -/
  | eval (e : Expr)
  /-- Run commands. -/
  | exec (commands : List Command)
  /-- Hand over a value. -/
  | give (v : Value)
  /-- End a block, with the value it returns if it does. -/
  | finish (result : Option Value)
  /-- Give up all work back to the host. -/
  | fail (pos : Position) (fault : Fault)
  /-- Stop at once. -/
  | stop (fatal : Fatal)

structure State where
  it : Interpreter
  control : Control
  work : List Pending := []

/-! ### Values, calls and elements -/

/-- Starts the call of a function. -/
def enter (it : Interpreter) (pos : Position) (ref : Nat) (args : List Value) (work : List Pending) :
    State :=
  let c := it.heap.closure ref
  if it.poisoned then ⟨it, .stop .poisoned, work⟩
  else if args.length ≠ c.params.length then
    ⟨it, .fail pos (.arityMismatch c.name c.params.length args.length), work⟩
  else if it.limit < it.frames.size then
    ⟨{ it with poisoned := true }, .stop (.stackOverflow it.limit), work⟩
  else
    let (scope, it) := it.enter c args pos
    ⟨it, .exec c.body, .call ref scope :: work⟩

/-- Ends a call of `callee` in `scope` with a result, and collects if that is due. The result, the
function and what pending work needs are kept. -/
def exit (it : Interpreter) (callee : Nat) (scope : ScopeId) (result : Option Value)
    (work : List Pending) : Interpreter :=
  let it := it.leave scope
  if it.isDue then (it.collect (result.toList ++ .closure callee :: heldBy work)).2 else it

/-- Calls what a name stands for: a builtin, else a function that the active scope knows. -/
def invoke (it : Interpreter) (pos : Position) (name : String) (args : List Value)
    (work : List Pending) : State :=
  match Builtin.ofName? name with
  | some b =>
    match b.call it args with
    | (.ok v, it) => ⟨it, .give v, work⟩
    | (.error f, it) => ⟨it, .fail pos f, work⟩
  | none =>
    match it.arena.findClosure it.active name with
    | some ref => enter it pos ref args work
    | none => ⟨it, .fail pos (.unknownFunction name), work⟩

/-- Uses a list of values that is complete. -/
def complete (it : Interpreter) (values : List Value) (work : List Pending) : Use → State
  | .array =>
    let (v, heap) := it.heap.newArray values.toArray
    ⟨{ it with heap }, .give v, work⟩
  | .invoke pos name more => invoke it pos name values (.groups pos more :: work)
  | .apply pos (.closure ref) more => enter it pos ref values (.groups pos more :: work)
  | .apply pos other _ => ⟨it, .fail pos (.type (.notFunction (other.text it.heap))), work⟩

/-- Goes on with a list of values. -/
def gather (it : Interpreter) (done : List Value) (rest : List Expr) (use : Use)
    (work : List Pending) : State :=
  match rest with
  | [] => complete it done.reverse work use
  | e :: es => ⟨it, .eval e, .values done es use :: work⟩

/-- Goes on with the entries of a map; of two entries with one name the later one counts. -/
def gatherEntries (it : Interpreter) (done : Dict Value) (rest : List (String × Expr))
    (work : List Pending) : State :=
  match rest with
  | [] =>
    let (v, heap) := it.heap.newMap done
    ⟨{ it with heap }, .give v, work⟩
  | (name, e) :: es => ⟨it, .eval e, .entries done name es :: work⟩

/-- A value, or a fault at a place. -/
def giveOrFail (it : Interpreter) (pos : Position) (r : Except Fault Value) (work : List Pending) :
    State :=
  match r with
  | .ok v => ⟨it, .give v, work⟩
  | .error f => ⟨it, .fail pos f, work⟩

/-- Changes the heap at a place, or fails. -/
def changeOrFail (it : Interpreter) (pos : Position) (r : Except Fault Heap.Place)
    (change : Heap → Heap.Place → Heap) (work : List Pending) : State :=
  match r with
  | .ok place => ⟨{ it with heap := change it.heap place }, .finish none, work⟩
  | .error f => ⟨it, .fail pos f, work⟩

/-- Starts on the keys `key` and `rest` into what `name` stands for. -/
def reachInto (it : Interpreter) (pos : Position) (name : String) (key : Expr) (rest : List Expr)
    (touch : Touch) (work : List Pending) : State :=
  match it.lookup name with
  | .ok base => ⟨it, .eval key, .reach pos base rest touch :: work⟩
  | .error f => ⟨it, .fail pos f, work⟩

/-- Has found `key` into `container`: goes on to the next key, or touches the element. -/
def reachOn (it : Interpreter) (pos : Position) (container key : Value) (rest : List Expr)
    (touch : Touch) (work : List Pending) : State :=
  match rest with
  | e :: es =>
    match it.heap.read container key with
    | .ok next => ⟨it, .eval e, .reach pos next es touch :: work⟩
    | .error f => ⟨it, .fail pos f, work⟩
  | [] =>
    match touch with
    | .store value => changeOrFail it pos (it.heap.place 1 container key) (·.put · value) work
    | .remove => changeOrFail it pos (it.heap.place 0 container key) Heap.erase work

/-- Assigns a value to a variable that is no constant, or starts on the path to an element. -/
def assignTo (it : Interpreter) (pos : Position) (name : String) (indexes : List Expr) (v : Value)
    (work : List Pending) : State :=
  match indexes with
  | key :: rest => reachInto it pos name key rest (.store v) work
  | [] =>
    if it.consts.contains name then ⟨it, .fail pos (.constAssignment name), work⟩
    else ⟨it.assign name v, .finish none, work⟩

/-! ### Loading -/

/-- Starts on the items of a program. Functions are left for later, so that no constant or assignment
can call one. -/
def stepLoad (it : Interpreter) (work : List Pending) : List Item → State
  | [] => ⟨it, .finish none, work⟩
  | .const pos name value :: rest =>
    ⟨{ it with pos }, .eval value, .constant name :: .items rest :: work⟩
  | .assign pos name indexes value :: rest =>
    ⟨{ it with pos }, .eval value, .assign pos name indexes :: .items rest :: work⟩
  | .remark _ :: rest | .define .. :: rest => ⟨it, .load rest, work⟩

/-- Defines the functions of a program. -/
def defineItems (it : Interpreter) : List Item → Interpreter
  | [] => it
  | .define _ name params body :: rest => defineItems (it.define name params body) rest
  | _ :: rest => defineItems it rest

/-- What is wrong with the main function: there is none, or it has parameters. -/
def mainFault? (it : Interpreter) : Option Fault :=
  match (it.arena.get Arena.globalScope).defs.find? "main" with
  | none => some .noMain
  | some ref =>
    let params := (it.heap.closure ref).params
    if params.isEmpty then none else some (.arityMismatch "main" params.length 0)

/-- Defines the functions of a program and checks that it has a main function. -/
def finishLoad (it : Interpreter) (items : List Item) (work : List Pending) : State :=
  let it := defineItems it items
  match mainFault? it with
  | none => ⟨it, .finish none, work⟩
  | some f => ⟨it, .fail Position.none f, work⟩

/-! ### Steps -/

/-- Only `true` takes a branch. -/
def holds : Value → Bool
  | .bool b => b
  | _ => false

/-- Starts on an expression. -/
def stepEval (it : Interpreter) (work : List Pending) : Expr → State
  | .number _ x => ⟨it, .give (.number x), work⟩
  | .bool _ b => ⟨it, .give (.bool b), work⟩
  | .null _ => ⟨it, .give .null, work⟩
  | .string _ s => ⟨it, .give (.string s), work⟩
  | .array _ items => gather it [] items .array work
  | .map _ entries => gatherEntries it Dict.empty entries work
  | .variable pos name => giveOrFail it pos (it.lookup name) work
  | .index pos base key => ⟨it, .eval base, .subscript pos key :: work⟩
  | .lambda _ params body =>
    let (v, it) := it.makeLambda params body
    ⟨it, .give v, work⟩
  | .call pos name args more => gather it [] args (.invoke pos name more) work
  | .binary pos op left right => ⟨it, .eval left, .operand pos op right :: work⟩

/-- Starts on a command that others follow. -/
def stepCommand (it : Interpreter) (rest : List Command) (work : List Pending) : Command → State
  | .remark .. => ⟨it, .exec rest, work⟩
  | .assign pos name indexes value =>
    ⟨it, .eval value, .assign pos name indexes :: .commands rest :: work⟩
  | .delete pos _ [] => ⟨it, .fail pos (.type .deleteWhole), work⟩
  | .delete pos name (key :: keys) => reachInto it pos name key keys .remove (.commands rest :: work)
  | .result _ value => ⟨it, .eval value, .result :: .commands rest :: work⟩
  | .branch _ condition yes no => ⟨it, .eval condition, .branch yes no :: .commands rest :: work⟩
  | .loop _ condition body => ⟨it, .eval condition, .test condition body :: .commands rest :: work⟩
  | .define _ name params body => ⟨it.define name params body, .exec rest, work⟩
  | .call pos name args more =>
    gather it [] args (.invoke pos name more) (.discard :: .commands rest :: work)

/-- Hands a value to the innermost pending work. -/
def stepGive (it : Interpreter) (v : Value) (work : List Pending) : Pending → State
  | .operand pos op right => ⟨it, .eval right, .operate pos op v :: work⟩
  | .operate pos op left => giveOrFail it pos (op.apply it.heap left v) work
  | .subscript pos key => ⟨it, .eval key, .select pos v :: work⟩
  | .select pos base => giveOrFail it pos (it.heap.read base v) work
  | .values done rest use => gather it (v :: done) rest use work
  | .entries done name rest => gatherEntries it (done.insert name v) rest work
  | .groups _ [] => ⟨it, .give v, work⟩
  | .groups pos (args :: more) => gather it [] args (.apply pos v more) work
  | .assign pos name indexes => assignTo it pos name indexes v work
  | .reach pos container rest touch => reachOn it pos container v rest touch work
  | .branch yes no => ⟨it, .exec (if holds v then yes else no), work⟩
  | .test condition body =>
    if holds v then ⟨it, .exec body, .again condition body :: work⟩ else ⟨it, .finish none, work⟩
  | .discard => ⟨it, .finish none, work⟩
  | .result => ⟨it, .finish (some v), work⟩
  | .commands rest => ⟨it, .exec rest, work⟩
  | .again condition body => ⟨it, .eval condition, .test condition body :: work⟩
  | .call callee scope => ⟨exit it callee scope (some v) work, .give v, work⟩
  | .constant name => ⟨{ it with consts := it.consts.insert name v }, .finish none, work⟩
  | .items rest => ⟨it, .load rest, work⟩
  | .functions items => finishLoad it items work

/-- Ends a block inside the innermost pending work. Work that waits for a value takes the result as
that value. -/
def stepFinish (it : Interpreter) (result : Option Value) (work : List Pending) : Pending → State
  | .commands rest =>
    match result with
    | none => ⟨it, .exec rest, work⟩
    | some v => ⟨it, .finish (some v), work⟩
  | .again condition body =>
    match result with
    | none => ⟨it, .eval condition, .test condition body :: work⟩
    | some v => ⟨it, .finish (some v), work⟩
  | .call callee scope => ⟨exit it callee scope result work, .give (result.getD .null), work⟩
  | pending => stepGive it (result.getD .null) work pending

/-- Gives up the innermost pending work; a call in progress is ended first. -/
def stepFail (it : Interpreter) (pos : Position) (fault : Fault) (work : List Pending) :
    Pending → State
  | .call callee scope => ⟨exit it callee scope none work, .fail pos fault, work⟩
  | _ => ⟨it, .fail pos fault, work⟩

/-- The next state. A state that has ended stays as it is. -/
def step (s : State) : State :=
  match s.control, s.work with
  | .load items, work => stepLoad s.it work items
  | .eval e, work => stepEval s.it work e
  | .exec [], work => ⟨s.it, .finish none, work⟩
  | .exec (c :: cs), work => stepCommand { s.it with pos := c.pos } cs work c
  | .give v, pending :: work => stepGive s.it v work pending
  | .finish result, pending :: work => stepFinish s.it result work pending
  | .fail pos fault, pending :: work => stepFail s.it pos fault work pending
  | _, _ => s

/-- The start of loading a program. -/
def loading (it : Interpreter) (program : Syntax.Program) : State :=
  ⟨it, .load program.items, [.functions program.items]⟩

/-- The start of a call by the host. -/
def calling (it : Interpreter) (name : String) (args : List Value) : State :=
  invoke it it.pos name args []

/-- The builtin that a complete list of values is for, and its arguments, if it is for one. -/
def Use.request? (values : List Value) : Use → Option (Builtin × List Value)
  | .invoke _ name _ => (Builtin.ofName? name).map (·, values)
  | _ => none

/-- The same for a list of values that may go on. -/
def request? (done : List Value) (rest : List Expr) (use : Use) : Option (Builtin × List Value) :=
  match rest with
  | [] => use.request? done.reverse
  | _ :: _ => none

/-- The builtin that the next step calls, if it calls one, and the arguments. -/
def State.request? (s : State) : Option (Builtin × List Value) :=
  match s.control, s.work with
  | .eval (.call pos name args more), _ => Machine.request? [] args (.invoke pos name more)
  | .exec (.call pos name args more :: _), _ => Machine.request? [] args (.invoke pos name more)
  | .give v, .values done rest use :: _ => Machine.request? (v :: done) rest use
  | .finish result, .values done rest use :: _ => Machine.request? (result.getD .null :: done) rest use
  | _, _ => none

/-- Whether the next step reads a line of input. -/
def State.readsLine (s : State) : Bool :=
  match s.request? with
  | some (.input, [_]) => true
  | _ => false

/-- How a run ended, if it has. -/
def State.outcome? (s : State) : Option (Except Error Value) :=
  match s.control, s.work with
  | .stop fatal, _ => some (.error (.fatal fatal))
  | .give v, [] => some (.ok v)
  | .finish result, [] => some (.ok (result.getD .null))
  | .fail pos fault, [] => some (.error (.eval pos fault))
  | _, _ => none

/-- Runs to the end, at most `n` steps: the outcome and the interpreter after it. -/
def run : Nat → State → Option (Except Error Value × Interpreter)
  | 0, _ => none
  | n + 1, s =>
    match s.outcome? with
    | some outcome => some (outcome, s.it)
    | none => run n (step s)

end RetroScript.Machine

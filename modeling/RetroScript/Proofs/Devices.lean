import RetroScript.Proofs.Lockstep

/-!
# Devices

The streams, the random numbers and the picture of an interpreter are its devices. A step either asks
the builtin that `request?` tells, or it does the same whatever the devices are and leaves them alone:
`plays_step`.
-/

namespace RetroScript

structure Devices where
  input : List UInt8
  out : Sink
  diag : Sink
  random : Generator
  video : Video.Memory

namespace Interpreter

def devices (it : Interpreter) : Devices := ⟨it.input, it.out, it.diag, it.random, it.video⟩

/-- The interpreter with other devices. -/
def equip (it : Interpreter) (d : Devices) : Interpreter :=
  { it with input := d.input, out := d.out, diag := d.diag, random := d.random, video := d.video }

theorem equip_devices (it : Interpreter) : it.equip it.devices = it := rfl

end Interpreter

namespace Machine

open Syntax (Expr Command Item)

def State.equip (s : State) (d : Devices) : State := { s with it := s.it.equip d }

/-- What a machine does with any devices, if it makes the given request. -/
inductive Plays : Option (Builtin × List Value) → (Devices → State) → Prop where
  | silent {next : Devices → State} (s : State) (same : ∀ d, next d = s.equip d) : Plays none next
  | asks {next : Devices → State} (b : Builtin) (it : Interpreter) (args : List Value) (pos : Position)
      (work : List Pending)
      (same : ∀ d, next d = giveOrFail (b.call (it.equip d) args).2 pos (b.call (it.equip d) args).1 work) :
    Plays (some (b, args)) next

theorem giveOrFail_it (it : Interpreter) (pos : Position) (r : Except Fault Value) (work : List Pending) :
    (giveOrFail it pos r work).it = it := by
  cases r <;> rfl

/-! ### Silent parts of a step -/

section

variable (it : Interpreter) (d : Devices)

theorem giveOrFail_equip (pos : Position) (r : Except Fault Value) (work : List Pending) :
    giveOrFail (it.equip d) pos r work = (giveOrFail it pos r work).equip d := by
  cases r <;> rfl

theorem changeOrFail_equip (pos : Position) (r : Except Fault Heap.Place) (change : Heap → Heap.Place → Heap)
    (work : List Pending) :
    changeOrFail (it.equip d) pos r change work = (changeOrFail it pos r change work).equip d := by
  cases r <;> rfl

theorem gatherEntries_equip (done : Dict Value) (rest : List (String × Expr)) (work : List Pending) :
    gatherEntries (it.equip d) done rest work = (gatherEntries it done rest work).equip d := by
  cases rest <;> rfl

theorem reachInto_equip (pos : Position) (name : String) (key : Expr) (rest : List Expr) (touch : Touch)
    (work : List Pending) :
    reachInto (it.equip d) pos name key rest touch work = (reachInto it pos name key rest touch work).equip d := by
  have found : (it.equip d).lookup name = it.lookup name := rfl
  unfold reachInto
  rw [found]
  cases it.lookup name <;> rfl

theorem reachOn_equip (pos : Position) (container key : Value) (rest : List Expr) (touch : Touch)
    (work : List Pending) :
    reachOn (it.equip d) pos container key rest touch work =
      (reachOn it pos container key rest touch work).equip d := by
  have heap : (it.equip d).heap = it.heap := rfl
  unfold reachOn
  rw [heap]
  cases rest with
  | cons e es =>
    dsimp only
    cases it.heap.read container key <;> rfl
  | nil => cases touch <;> exact changeOrFail_equip it d _ _ _ _

theorem assignTo_equip (pos : Position) (name : String) (indexes : List Expr) (v : Value) (work : List Pending) :
    assignTo (it.equip d) pos name indexes v work = (assignTo it pos name indexes v work).equip d := by
  cases indexes with
  | cons key rest => exact reachInto_equip it d _ _ _ _ _ _
  | nil =>
    have consts : (it.equip d).consts = it.consts := rfl
    unfold assignTo
    rw [consts]
    dsimp only
    split <;> rfl

theorem defineItems_equip (items : List Item) :
    defineItems (it.equip d) items = (defineItems it items).equip d := by
  fun_induction defineItems it items with
  | case1 it => rfl
  | case2 it pos name params body rest ih => exact ih
  | case3 it item rest other ih =>
    rw [defineItems]
    · exact ih
    · exact other

theorem finishLoad_equip (items : List Item) (work : List Pending) :
    finishLoad (it.equip d) items work = (finishLoad it items work).equip d := by
  have main : mainFault? ((defineItems it items).equip d) = mainFault? (defineItems it items) := rfl
  unfold finishLoad
  rw [defineItems_equip]
  dsimp only
  rw [main]
  cases mainFault? (defineItems it items) <;> rfl

theorem exit_equip (callee : Nat) (scope : ScopeId) (result : Option Value) (work : List Pending) :
    exit (it.equip d) callee scope result work = (exit it callee scope result work).equip d := by
  have left : (it.equip d).leave scope = (it.leave scope).equip d := rfl
  have due : ((it.leave scope).equip d).isDue = (it.leave scope).isDue := rfl
  unfold exit
  rw [left]
  dsimp only
  rw [due]
  split <;> rfl

theorem enter_equip (pos : Position) (ref : Nat) (args : List Value) (work : List Pending) :
    enter (it.equip d) pos ref args work = (enter it pos ref args work).equip d := by
  have heap : (it.equip d).heap = it.heap := rfl
  have poisoned : (it.equip d).poisoned = it.poisoned := rfl
  have limit : (it.equip d).limit = it.limit := rfl
  have frames : (it.equip d).frames = it.frames := rfl
  unfold enter
  rw [heap, poisoned, limit, frames]
  dsimp only
  split
  · rfl
  split
  · rfl
  split <;> rfl

end

/-! ### Steps -/

section

variable (it : Interpreter)

theorem plays_still (control : Control) (work : List Pending) :
    Plays none fun d => ⟨it.equip d, control, work⟩ :=
  .silent ⟨it, control, work⟩ fun _ => rfl

theorem plays_invoke (pos : Position) (name : String) (args : List Value) (work : List Pending) :
    Plays ((Builtin.ofName? name).map (·, args)) fun d => invoke (it.equip d) pos name args work := by
  cases found : Builtin.ofName? name with
  | some b => exact .asks b it args pos work fun d => invoke_builtin (it.equip d) found pos args work
  | none =>
    -- Functions are found through scopes, and no device is one.
    refine .silent (invoke it pos name args work) fun d => ?_
    have known : (it.equip d).arena.findClosure (it.equip d).active name =
        it.arena.findClosure it.active name := rfl
    unfold invoke
    rw [found]
    dsimp only
    rw [known]
    cases it.arena.findClosure it.active name with
    | some ref => exact enter_equip it d pos ref args work
    | none => rfl

theorem plays_complete (values : List Value) (work : List Pending) (use : Use) :
    Plays (use.request? values) fun d => complete (it.equip d) values work use := by
  cases use with
  | array => exact .silent (complete it values work .array) fun _ => rfl
  | invoke pos name more => exact plays_invoke it pos name values _
  | apply pos callee more =>
    refine .silent (complete it values work (.apply pos callee more)) fun d => ?_
    cases callee with
    | closure ref => exact enter_equip it d pos ref values _
    | _ => rfl

theorem plays_gather (done : List Value) (rest : List Expr) (use : Use) (work : List Pending) :
    Plays (request? done rest use) fun d => gather (it.equip d) done rest use work := by
  cases rest with
  | nil => exact plays_complete it _ work use
  | cons e es => exact plays_still it _ _

/-- Values that are not for a name make no request. -/
theorem request?_eq_none {use : Use} (none : ∀ values, use.request? values = none) (done : List Value)
    (rest : List Expr) : request? done rest use = .none := by
  cases rest with
  | nil => exact none _
  | cons e es => rfl

theorem plays_stepLoad (work : List Pending) (items : List Item) :
    Plays none fun d => stepLoad (it.equip d) work items := by
  refine .silent (stepLoad it work items) fun d => ?_
  cases items with
  | nil => rfl
  | cons item rest => cases item <;> rfl

theorem plays_stepEval (work : List Pending) (e : Expr) :
    Plays (State.request? ⟨it, .eval e, work⟩) fun d => stepEval (it.equip d) work e := by
  cases e with
  | array pos items =>
    have gathers := plays_gather it [] items .array work
    rwa [request?_eq_none fun _ => rfl] at gathers
  | map pos entries => exact .silent _ fun d => gatherEntries_equip it d _ _ _
  | «variable» pos name => exact .silent _ fun d => giveOrFail_equip it d pos (it.lookup name) work
  | call pos name args more => exact plays_gather it _ _ _ _
  | lambda pos params body => exact .silent (stepEval it work (.lambda pos params body)) fun _ => rfl
  | _ => exact plays_still it _ _

theorem plays_stepCommand (rest : List Command) (work : List Pending) (c : Command) :
    Plays (State.request? ⟨it, .exec (c :: rest), work⟩) fun d => stepCommand (it.equip d) rest work c := by
  cases c with
  | delete pos name indexes =>
    cases indexes with
    | nil => exact plays_still it _ _
    | cons key keys => exact .silent _ fun d => reachInto_equip it d _ _ _ _ _ _
  | define pos name params body =>
    exact .silent (stepCommand it rest work (.define pos name params body)) fun _ => rfl
  | call pos name args more => exact plays_gather it _ _ _ _
  | _ => exact plays_still it _ _

theorem plays_stepGive (v : Value) (work : List Pending) (pending : Pending) :
    Plays (State.request? ⟨it, .give v, pending :: work⟩) fun d => stepGive (it.equip d) v work pending := by
  cases pending with
  | operate pos op left => exact .silent _ fun d => giveOrFail_equip it d pos (op.apply it.heap left v) work
  | select pos base => exact .silent _ fun d => giveOrFail_equip it d pos (it.heap.read base v) work
  | values done rest use => exact plays_gather it _ _ _ _
  | entries done name rest => exact .silent _ fun d => gatherEntries_equip it d _ _ _
  | groups pos more =>
    cases more with
    | nil => exact plays_still it _ _
    | cons args more =>
      have gathers := plays_gather it [] args (.apply pos v more) work
      rwa [request?_eq_none fun _ => rfl] at gathers
  | assign pos name indexes => exact .silent _ fun d => assignTo_equip it d _ _ _ _ _
  | reach pos container rest touch => exact .silent _ fun d => reachOn_equip it d _ _ _ _ _ _
  | test condition body =>
    refine .silent (stepGive it v work (.test condition body)) fun d => ?_
    simp only [stepGive]
    split <;> rfl
  | call callee scope =>
    exact .silent ⟨exit it callee scope (some v) work, .give v, work⟩ fun d =>
      congrArg (State.mk · (.give v) work) (exit_equip it d _ _ _ _)
  | constant name => exact .silent (stepGive it v work (.constant name)) fun _ => rfl
  | functions items => exact .silent _ fun d => finishLoad_equip it d _ _
  | _ => exact plays_still it _ _

theorem plays_stepFinish (result : Option Value) (work : List Pending) (pending : Pending) :
    Plays (State.request? ⟨it, .finish result, pending :: work⟩) fun d =>
      stepFinish (it.equip d) result work pending := by
  have given := plays_stepGive it (result.getD .null) work pending
  cases pending with
  | commands rest => cases result <;> exact plays_still it _ _
  | again condition body => cases result <;> exact plays_still it _ _
  | call callee scope =>
    exact .silent ⟨exit it callee scope result work, .give (result.getD .null), work⟩ fun d =>
      congrArg (State.mk · (.give (result.getD .null)) work) (exit_equip it d _ _ _ _)
  | _ => exact given

theorem plays_stepFail (pos : Position) (fault : Fault) (work : List Pending) (pending : Pending) :
    Plays none fun d => stepFail (it.equip d) pos fault work pending := by
  cases pending with
  | call callee scope =>
    exact .silent ⟨exit it callee scope none work, .fail pos fault, work⟩ fun d =>
      congrArg (State.mk · (.fail pos fault) work) (exit_equip it d _ _ _ _)
  | _ => exact plays_still it _ _

end

/-- Devices are for builtins only. -/
theorem plays_step (s : State) : Plays s.request? fun d => step (s.equip d) := by
  obtain ⟨it, control, work⟩ := s
  cases control with
  | load items => exact plays_stepLoad it work items
  | eval e => exact plays_stepEval it work e
  | exec commands =>
    cases commands with
    | nil => exact plays_still it _ _
    | cons c cs => exact plays_stepCommand { it with pos := c.pos } cs work c
  | give v =>
    cases work with
    | nil => exact plays_still it _ _
    | cons pending work => exact plays_stepGive it v work pending
  | finish result =>
    cases work with
    | nil => exact plays_still it _ _
    | cons pending work => exact plays_stepFinish it result work pending
  | fail pos fault =>
    cases work with
    | nil => exact plays_still it _ _
    | cons pending work => exact plays_stepFail it pos fault work pending
  | stop fatal => exact plays_still it _ _

end Machine

end RetroScript

import RetroScript.Proofs.Builtins
import RetroScript.Proofs.Host

/-!
# The stack of calls

A step leaves the calls in progress alone, starts a call, or ends the innermost one: `step_cases`.
So pending work and frames stay paired up, and only a fatal stop leaves frames behind.
-/

namespace RetroScript

/-- Two interpreters with the same calls in progress. -/
structure Interpreter.Steady (it it' : Interpreter) : Prop where
  limit : it'.limit = it.limit
  frames : it'.frames = it.frames
  active : it'.active = it.active
  poisoned : it'.poisoned = it.poisoned
  diag : it'.diag.limit = it.diag.limit

theorem Interpreter.Steady.refl (it : Interpreter) : it.Steady it := ⟨rfl, rfl, rfl, rfl, .refl _⟩

theorem Interpreter.Steady.trans {it it' last : Interpreter} (first : it.Steady it')
    (second : it'.Steady last) : it.Steady last :=
  ⟨second.limit.trans first.limit, second.frames.trans first.frames,
    second.active.trans first.active, second.poisoned.trans first.poisoned,
    second.diag.trans first.diag⟩

theorem Interpreter.steady_define (it : Interpreter) (name : String) (params : List String)
    (body : List Syntax.Command) : it.Steady (it.define name params body) :=
  ⟨rfl, rfl, rfl, rfl, .refl _⟩

theorem Builtin.Answers.steady {it : Interpreter} {answer : Builtin.Answer}
    (answers : Builtin.Answers it answer) : it.Steady answer.2 := by
  have frame := answers.frame
  exact ⟨by rw [frame], by rw [frame], by rw [frame], by rw [frame], answers.diag⟩

namespace Machine

open Syntax (Expr Command Item)

/-- The scopes of the calls that pending work waits for, innermost first. -/
def callScopes (work : List Pending) : List ScopeId :=
  work.filterMap fun
    | .call _ scope => some scope
    | _ => none

/-- Whether a machine may go on. -/
def Control.Running : Control → Prop
  | .stop _ => False
  | _ => True

theorem Control.running_ofDump (fits : Bool) : (Control.ofDump fits).Running := by
  cases fits <;> trivial

/-- What a step does that ends no call: it leaves the calls alone, or starts one. -/
inductive Moves (it : Interpreter) (work : List Pending) : State → Prop where
  | keeps {it' : Interpreter} {control : Control} {work' : List Pending} (steady : it.Steady it')
      (calls : callScopes work' = callScopes work) (running : control.Running) :
      Moves it work ⟨it', control, work'⟩
  | enters {it' : Interpreter} {work' : List Pending} (steady : it.Steady it')
      (calls : callScopes work' = callScopes work) (pos : Position) (ref : Nat)
      (args : List Value) : Moves it work (enter it' pos ref args work')

section

variable {it it' : Interpreter} {work work' : List Pending} (steady : it.Steady it')
  (calls : callScopes work' = callScopes work)

include steady calls

theorem moves_giveOrFail (pos : Position) (r : Except Fault Value) :
    Moves it work (giveOrFail it' pos r work') := by
  unfold giveOrFail
  split <;> exact .keeps steady calls trivial

theorem moves_changeOrFail (pos : Position) (r : Except Fault Heap.Place)
    (change : Heap → Heap.Place → Heap) :
    Moves it work (changeOrFail it' pos r change work') := by
  unfold changeOrFail
  split
  · exact .keeps (steady.trans ⟨rfl, rfl, rfl, rfl, .refl _⟩) calls trivial
  · exact .keeps steady calls trivial

theorem moves_invoke (pos : Position) (name : String) (args : List Value) :
    Moves it work (invoke it' pos name args work') := by
  unfold invoke
  split
  · next b _ =>
    have after := (Builtin.answers_call it' b args).steady
    split
    · next same => exact .keeps (steady.trans (by rw [same] at after; exact after)) calls trivial
    · next same => exact .keeps (steady.trans (by rw [same] at after; exact after)) calls trivial
  · split
    · exact .enters steady calls _ _ _
    · exact .keeps steady calls trivial

theorem moves_complete (values : List Value) (use : Use) :
    Moves it work (complete it' values work' use) := by
  unfold complete
  split
  · exact .keeps (steady.trans ⟨rfl, rfl, rfl, rfl, .refl _⟩) calls trivial
  · exact moves_invoke steady (by exact calls) _ _ _
  · exact .enters steady (by exact calls) _ _ _
  · exact .keeps steady calls trivial

theorem moves_gather (done : List Value) (rest : List Expr) (use : Use) :
    Moves it work (gather it' done rest use work') := by
  unfold gather
  split
  · exact moves_complete steady calls _ _
  · exact .keeps steady calls trivial

theorem moves_gatherEntries (done : Dict Value) (rest : List (String × Expr)) :
    Moves it work (gatherEntries it' done rest work') := by
  unfold gatherEntries
  split
  · exact .keeps (steady.trans ⟨rfl, rfl, rfl, rfl, .refl _⟩) calls trivial
  · exact .keeps steady calls trivial

theorem moves_reachInto (pos : Position) (name : String) (key : Expr) (rest : List Expr)
    (touch : Touch) : Moves it work (reachInto it' pos name key rest touch work') := by
  unfold reachInto
  split <;> exact .keeps steady calls trivial

theorem moves_reachOn (pos : Position) (container key : Value) (rest : List Expr) (touch : Touch) :
    Moves it work (reachOn it' pos container key rest touch work') := by
  unfold reachOn
  split
  · split <;> exact .keeps steady calls trivial
  · split <;> exact moves_changeOrFail steady calls _ _ _

theorem moves_assignTo (pos : Position) (name : String) (indexes : List Expr) (v : Value) :
    Moves it work (assignTo it' pos name indexes v work') := by
  unfold assignTo
  split
  · exact moves_reachInto steady calls _ _ _ _ _
  · split
    · exact .keeps steady calls trivial
    · exact .keeps (steady.trans ⟨rfl, rfl, rfl, rfl, .refl _⟩) calls trivial

theorem moves_stepLoad (items : List Item) : Moves it work (stepLoad it' work' items) := by
  unfold stepLoad
  split
  · exact .keeps steady calls trivial
  · exact .keeps (steady.trans ⟨rfl, rfl, rfl, rfl, .refl _⟩) calls trivial
  · exact .keeps (steady.trans ⟨rfl, rfl, rfl, rfl, .refl _⟩) calls trivial
  · exact .keeps steady calls trivial
  · exact .keeps steady calls trivial

omit calls in
theorem steady_defineItems (items : List Item) : it.Steady (defineItems it' items) := by
  fun_induction defineItems it' items with
  | case1 it' => exact steady
  | case2 it' pos name params body rest ih => exact ih (steady.trans (it'.steady_define _ _ _))
  | case3 it' item rest _ ih => exact ih steady

theorem moves_finishLoad (items : List Item) : Moves it work (finishLoad it' items work') := by
  unfold finishLoad
  dsimp only
  split <;> exact .keeps (steady_defineItems steady items) calls trivial

theorem moves_stepEval (e : Expr) : Moves it work (stepEval it' work' e) := by
  cases e with
  | array pos items => exact moves_gather steady calls _ _ _
  | map pos entries => exact moves_gatherEntries steady calls _ _
  | «variable» pos name => exact moves_giveOrFail steady calls _ _
  | lambda pos params body =>
    exact .keeps (steady.trans ⟨rfl, rfl, rfl, rfl, .refl _⟩) calls trivial
  | call pos name args more => exact moves_gather steady calls _ _ _
  | _ => exact .keeps steady calls trivial

theorem moves_stepCommand (rest : List Command) (c : Command) :
    Moves it work (stepCommand it' rest work' c) := by
  cases c with
  | delete pos name indexes =>
    cases indexes with
    | nil => exact .keeps steady calls trivial
    | cons key keys => exact moves_reachInto steady (by exact calls) _ _ _ _ _
  | define pos name params body =>
    exact .keeps (steady.trans (it'.steady_define _ _ _)) calls trivial
  | call pos name args more => exact moves_gather steady (by exact calls) _ _ _
  | _ => exact .keeps steady calls trivial

/-- Pending work that waits for a call to end is the one case in which a value ends a call. -/
theorem moves_stepGive (v : Value) {pending : Pending}
    (notCall : ∀ callee scope, pending ≠ .call callee scope) :
    Moves it work (stepGive it' v work' pending) := by
  cases pending with
  | operate pos op left => exact moves_giveOrFail steady calls _ _
  | select pos base => exact moves_giveOrFail steady calls _ _
  | values done rest use => exact moves_gather steady calls _ _ _
  | entries done name rest => exact moves_gatherEntries steady calls _ _
  | groups pos more =>
    cases more with
    | nil => exact .keeps steady calls trivial
    | cons args more => exact moves_gather steady calls _ _ _
  | assign pos name indexes => exact moves_assignTo steady calls _ _ _ _
  | reach pos container rest touch => exact moves_reachOn steady calls _ _ _ _ _
  | test condition body =>
    simp only [stepGive]
    split <;> exact .keeps steady calls trivial
  | call callee scope => exact absurd rfl (notCall callee scope)
  | constant name => exact .keeps (steady.trans ⟨rfl, rfl, rfl, rfl, .refl _⟩) calls trivial
  | functions items => exact moves_finishLoad steady calls _
  | _ => exact .keeps steady calls trivial

end

/-- Everything a step can do to the calls in progress. -/
inductive StepCase (s s' : State) : Prop where
  | moves (running : s.control.Running) (moves : Moves s.it s.work s')
  | leaves (callee : Nat) (scope : ScopeId) (result : Option Value) (control : Control)
      (work : List Pending) (running : s.control.Running)
      (waiting : s.work = .call callee scope :: work) (goesOn : control.Running)
      (after : s' = ⟨exit s.it callee scope result work, control, work⟩)
  | rests (ended : s.outcome?.isSome) (same : s' = s)

theorem callScopes_cons_of_not_call {pending : Pending} (work : List Pending)
    (notCall : ∀ callee scope, pending ≠ .call callee scope) :
    callScopes (pending :: work) = callScopes work := by
  cases pending with
  | call callee scope => exact absurd rfl (notCall callee scope)
  | _ => rfl

/-- The end of a block hands a value to pending work, or goes on outwards with the result. -/
theorem stepFinish_eq (it : Interpreter) (result : Option Value) (work : List Pending)
    {pending : Pending} (notCall : ∀ callee scope, pending ≠ .call callee scope) :
    stepFinish it result work pending = stepGive it (result.getD .null) work pending ∨
      ∃ v, result = some v ∧ stepFinish it result work pending = ⟨it, .finish (some v), work⟩ := by
  cases pending with
  | commands rest =>
    cases result with
    | none => exact Or.inl rfl
    | some v => exact Or.inr ⟨v, rfl, rfl⟩
  | again condition body =>
    cases result with
    | none => exact Or.inl rfl
    | some v => exact Or.inr ⟨v, rfl, rfl⟩
  | call callee scope => exact absurd rfl (notCall callee scope)
  | _ => exact Or.inl rfl

theorem call_or_not (pending : Pending) :
    (∃ callee scope, pending = .call callee scope) ∨ ∀ callee scope, pending ≠ .call callee scope := by
  cases pending with
  | call callee scope => exact Or.inl ⟨callee, scope, rfl⟩
  | _ => exact Or.inr fun _ _ same => by cases same

theorem step_cases (s : State) : StepCase s (step s) := by
  obtain ⟨it, control, work⟩ := s
  have steady := Interpreter.Steady.refl it
  cases control with
  | load items => exact .moves trivial (moves_stepLoad steady rfl items)
  | eval e => exact .moves trivial (moves_stepEval steady rfl e)
  | exec commands =>
    cases commands with
    | nil => exact .moves trivial (.keeps steady rfl trivial)
    | cons c cs =>
      have moved : it.Steady { it with pos := c.pos } := ⟨rfl, rfl, rfl, rfl, .refl _⟩
      exact .moves trivial (moves_stepCommand moved rfl cs c)
  | give v =>
    cases work with
    | nil => exact .rests rfl rfl
    | cons pending work =>
      rcases call_or_not pending with ⟨callee, scope, rfl⟩ | notCall
      · exact .leaves callee scope (some v) (.give v) work trivial rfl trivial rfl
      · have calls := (callScopes_cons_of_not_call work notCall).symm
        exact .moves trivial (moves_stepGive steady calls v notCall)
  | finish result =>
    cases work with
    | nil => exact .rests rfl rfl
    | cons pending work =>
      rcases call_or_not pending with ⟨callee, scope, rfl⟩ | notCall
      · exact .leaves callee scope result (.give (result.getD .null)) work trivial rfl trivial rfl
      · have calls := (callScopes_cons_of_not_call work notCall).symm
        refine .moves trivial ?_
        show Moves it (pending :: work) (stepFinish it result work pending)
        rcases stepFinish_eq it result work notCall with given | ⟨v, _, passed⟩
        · rw [given]
          exact moves_stepGive steady calls _ notCall
        · rw [passed]
          exact .keeps steady calls trivial
  | fail pos fault =>
    cases work with
    | nil => exact .rests rfl rfl
    | cons pending work =>
      cases pending with
      | call callee scope => exact .leaves callee scope none (.fail pos fault) work trivial rfl trivial rfl
      | _ => exact .moves trivial (.keeps steady rfl trivial)
  | stop fatal => exact .rests rfl rfl

/-! ### Runs -/

/-- A fatal stop in a run that began with `origin`: calls were refused from the start, or the run has
just gone too deep. -/
def Stopped (origin it : Interpreter) : Fatal → Prop
  | .poisoned => origin.poisoned = true ∧ it.poisoned = true
  | .stackOverflow limit =>
    origin.poisoned = false ∧ it.poisoned = true ∧ limit = origin.limit ∧
      it.frames.size = origin.limit + 1

/-- A state in a run that began with `origin`. The frames above those of `origin` belong to the calls
that pending work waits for: the scope of each call is the active one or the caller of the next. -/
structure Within (origin : Interpreter) (s : State) : Prop where
  limit : s.it.limit = origin.limit
  depth : s.it.frames.size ≤ origin.limit + 1
  paired : ∃ pushed : List Frame, s.it.frames.toList = origin.frames.toList ++ pushed ∧
    callScopes s.work ++ [origin.active] = s.it.active :: (pushed.map Frame.caller).reverse
  quiet : origin.poisoned = true → callScopes s.work = []
  flag : s.control.Running → s.it.poisoned = origin.poisoned
  stopped : ∀ {fatal}, s.control = .stop fatal → Stopped origin s.it fatal

variable {origin : Interpreter} {s s' : State}

theorem Control.running_ne_stop {control : Control} (running : control.Running) {fatal : Fatal} :
    control ≠ .stop fatal := by
  rintro rfl
  exact running

theorem within_origin (shallow : origin.frames.size ≤ origin.limit + 1) :
    Within origin ⟨origin, .finish none, []⟩ where
  limit := rfl
  depth := shallow
  paired := ⟨[], by simp, rfl⟩
  quiet _ := rfl
  flag _ := rfl
  stopped same := by cases same

/-- A call that starts is refused, or has a frame and pending work of its own. -/
theorem within_enter {it : Interpreter} {work : List Pending} (within : Within origin s)
    (running : s.control.Running) (steady : s.it.Steady it)
    (calls : callScopes work = callScopes s.work) (pos : Position) (ref : Nat) (args : List Value) :
    Within origin (enter it pos ref args work) := by
  have limit := steady.limit.trans within.limit
  have poisoned := steady.poisoned.trans (within.flag running)
  have depth : it.frames.size ≤ origin.limit + 1 := steady.frames ▸ within.depth
  obtain ⟨pushed, frames, scopes⟩ := within.paired
  rw [← steady.frames] at frames
  rw [← steady.active, ← calls] at scopes
  have quiet : origin.poisoned = true → callScopes work = [] := fun set => calls.trans (within.quiet set)
  unfold enter
  dsimp only
  split
  · next set =>
    refine ⟨limit, depth, ⟨pushed, frames, scopes⟩, quiet, fun running => running.elim, fun same => ?_⟩
    cases same
    exact ⟨poisoned ▸ set, set⟩
  · next clear =>
    have usable : origin.poisoned = false := by simpa [poisoned] using clear
    split
    · exact ⟨limit, depth, ⟨pushed, frames, scopes⟩, quiet, fun _ => poisoned,
        fun same => by cases same⟩
    · split
      · next deep =>
        refine ⟨limit, depth, ⟨pushed, frames, scopes⟩, quiet, fun running => running.elim,
          fun same => ?_⟩
        cases same
        refine ⟨usable, rfl, limit, Nat.le_antisymm depth ?_⟩
        rw [limit] at deep
        exact deep
      · next room =>
        refine ⟨limit, ?_, ⟨pushed ++ [⟨pos, (it.heap.closure ref).name, it.active⟩], ?_, ?_⟩, ?_,
          fun _ => poisoned, fun same => by cases same⟩
        · rw [limit, Nat.not_lt] at room
          simpa [Interpreter.enter] using Nat.succ_le_succ room
        · simp [Interpreter.enter, frames]
        · simp only [List.map_append, List.map_cons, List.map_nil, List.reverse_append,
            List.reverse_cons, List.reverse_nil, List.nil_append, List.cons_append, ← scopes]
          rfl
        · intro set
          rw [usable] at set
          cases set

theorem within_moves (within : Within origin s) (running : s.control.Running)
    (moves : Moves s.it s.work s') : Within origin s' := by
  cases moves with
  | enters steady calls pos ref args => exact within_enter within running steady calls pos ref args
  | @keeps it control work steady calls goesOn =>
    obtain ⟨pushed, frames, scopes⟩ := within.paired
    refine ⟨steady.limit.trans within.limit, steady.frames ▸ within.depth,
      ⟨pushed, steady.frames ▸ frames, ?_⟩, fun set => calls.trans (within.quiet set),
      fun _ => steady.poisoned.trans (within.flag running),
      fun same => absurd same (Control.running_ne_stop goesOn)⟩
    show callScopes work ++ [origin.active] = it.active :: _
    rw [calls, steady.active]
    exact scopes

theorem exit_steady (it : Interpreter) (callee : Nat) (scope : ScopeId) (result : Option Value)
    (work : List Pending) : (it.leave scope).Steady (exit it callee scope result work) := by
  unfold exit
  dsimp only
  split
  · exact ⟨rfl, rfl, rfl, rfl, .refl _⟩
  · exact .refl _

/-- The innermost call that pending work waits for is the active one, and its frame is the last. -/
theorem Within.innermost (within : Within origin s) {callee : Nat} {scope : ScopeId}
    {work : List Pending} (waiting : s.work = .call callee scope :: work) :
    scope = s.it.active ∧ ∃ (below : List Frame) (last : Frame),
      s.it.frames.toList = origin.frames.toList ++ below ++ [last] ∧
      callScopes work ++ [origin.active] = last.caller :: (below.map Frame.caller).reverse := by
  obtain ⟨pushed, frames, scopes⟩ := within.paired
  rw [waiting] at scopes
  have ⟨same, rest⟩ : scope = s.it.active ∧
      callScopes work ++ [origin.active] = (pushed.map Frame.caller).reverse := List.cons.inj scopes
  refine ⟨same, ?_⟩
  rcases List.eq_nil_or_concat pushed with rfl | ⟨below, last, rfl⟩
  · simp at rest
  · refine ⟨below, last, ?_, ?_⟩
    · rw [frames, List.concat_eq_append, List.append_assoc]
    · rw [rest, List.concat_eq_append, List.map_append, List.reverse_append]
      rfl

theorem within_leave (within : Within origin s) (running : s.control.Running) {callee : Nat}
    {scope : ScopeId} {work : List Pending} (waiting : s.work = .call callee scope :: work)
    (result : Option Value) {control : Control} (goesOn : control.Running) :
    Within origin ⟨exit s.it callee scope result work, control, work⟩ := by
  obtain ⟨_, below, last, frames, scopes⟩ := within.innermost waiting
  have steady := exit_steady s.it callee scope result work
  have back : s.it.frames.back? = some last := by
    rw [← Array.getLast?_toList, frames]
    simp
  refine ⟨?_, ?_, ⟨below, ?_, ?_⟩, ?_, ?_, fun same => absurd same (Control.running_ne_stop goesOn)⟩
  · exact steady.limit.trans within.limit
  · show (exit s.it callee scope result work).frames.size ≤ _
    rw [steady.frames]
    exact Nat.le_trans (by simp [Interpreter.leave]) within.depth
  · show (exit s.it callee scope result work).frames.toList = _
    rw [steady.frames]
    simp [Interpreter.leave, frames]
  · show callScopes work ++ _ = (exit s.it callee scope result work).active :: _
    rw [steady.active, scopes]
    simp [Interpreter.leave, back]
  · intro set
    have none := within.quiet set
    rw [waiting] at none
    cases none
  · intro _
    exact steady.poisoned.trans (within.flag running)

theorem within_step (within : Within origin s) : Within origin (step s) := by
  cases step_cases s with
  | moves running moves => exact within_moves within running moves
  | leaves callee scope result control work running waiting goesOn after =>
    rw [after]
    exact within_leave within running waiting result goesOn
  | rests ended same =>
    rw [same]
    exact within

end Machine

namespace Host

open Machine

/-- An interpreter that no call is in progress in, or that takes no calls any more. -/
def Rested (it : Interpreter) : Prop :=
  it.poisoned = true ∨ it.frames = #[] ∧ it.active = Arena.globalScope

/-- How a request that began with `origin` may leave the calls. -/
structure Disciplined (origin : Interpreter) (result : Except Error Value) (it : Interpreter) :
    Prop where
  restored : (∀ fatal, result ≠ .error (.fatal fatal)) →
    it.frames = origin.frames ∧ it.active = origin.active ∧ it.poisoned = origin.poisoned
  overflow : ∀ limit, result = .error (.fatal (.stackOverflow limit)) →
    limit = origin.limit ∧ it.poisoned = true ∧ it.frames.size = origin.limit + 1
  forever : origin.poisoned = true →
    it.poisoned = true ∧ it.frames = origin.frames ∧ it.active = origin.active

variable {origin : Interpreter} {s : State} {result : Except Error Value}

theorem frames_of_no_calls (within : Within origin s) (none : callScopes s.work = []) :
    s.it.frames = origin.frames ∧ s.it.active = origin.active := by
  obtain ⟨pushed, frames, scopes⟩ := within.paired
  rw [none] at scopes
  obtain ⟨active, rest⟩ := List.cons.inj scopes
  have empty : pushed = [] := by simpa using rest.symm
  rw [empty, List.append_nil] at frames
  exact ⟨Array.toList_inj.mp frames, active.symm⟩

theorem ended_cases (ended : s.outcome? = some result) :
    s.work = [] ∧ s.control.Running ∧ (∀ fatal, result ≠ .error (.fatal fatal)) ∨
      ∃ fatal, s.control = .stop fatal ∧ result = .error (.fatal fatal) := by
  unfold State.outcome? at ended
  split at ended
  · next fatal control =>
    cases ended
    exact Or.inr ⟨fatal, control, rfl⟩
  · next control work =>
    cases ended
    exact Or.inl ⟨work, by rw [control]; trivial, fun _ same => by cases same⟩
  · next control work =>
    cases ended
    exact Or.inl ⟨work, by rw [control]; trivial, fun _ same => by cases same⟩
  · next control work =>
    cases ended
    exact Or.inl ⟨work, by rw [control]; trivial, fun _ same => by cases same⟩
  · cases ended

theorem disciplined_of_ended (within : Within origin s) (ended : s.outcome? = some result) :
    Disciplined origin result s.it := by
  rcases ended_cases ended with ⟨work, running, noFatal⟩ | ⟨fatal, control, rfl⟩
  · obtain ⟨frames, active⟩ := frames_of_no_calls within (by rw [work]; rfl)
    have poisoned := within.flag running
    exact ⟨fun _ => ⟨frames, active, poisoned⟩, fun _ same => absurd same (noFatal _),
      fun set => ⟨poisoned.trans set, frames, active⟩⟩
  · have stopped := within.stopped control
    refine ⟨fun noFatal => absurd rfl (noFatal fatal), fun limit same => ?_, fun set => ?_⟩
    · cases same
      obtain ⟨_, poisoned, limit, deep⟩ := stopped
      exact ⟨limit, poisoned, deep⟩
    · obtain ⟨frames, active⟩ := frames_of_no_calls within (within.quiet set)
      cases fatal with
      | poisoned => exact ⟨stopped.2, frames, active⟩
      | stackOverflow limit => exact absurd (set.symm.trans stopped.1) (by decide)

theorem rested_of_ended (within : Within origin s) (rested : Rested origin)
    (ended : s.outcome? = some result) : Rested s.it := by
  have disciplined := disciplined_of_ended within ended
  rcases ended_cases ended with ⟨_, _, noFatal⟩ | ⟨fatal, control, rfl⟩
  · obtain ⟨frames, active, poisoned⟩ := disciplined.restored noFatal
    rcases rested with set | ⟨empty, outermost⟩
    · exact Or.inl (poisoned.trans set)
    · exact Or.inr ⟨frames.trans empty, active.trans outermost⟩
  · have stopped := within.stopped control
    cases fatal with
    | poisoned => exact Or.inl stopped.2
    | stackOverflow limit => exact Or.inl stopped.2.1

theorem steady_settle (it : Interpreter) (slot : Option Nat) (result : Except Error Value) :
    it.Steady (settle it slot result) := by
  unfold settle
  split
  · exact ⟨rfl, rfl, rfl, rfl, .refl _⟩
  · exact .refl it

/-- Between two requests: no call is in progress, or all calls are refused. -/
theorem idle_settle (within : Within origin s) (rested : Rested origin)
    (ended : s.outcome? = some result) (slot : Option Nat) :
    (settle s.it slot result).limit = origin.limit ∧
      (settle s.it slot result).frames.size ≤ origin.limit + 1 ∧
      Rested (settle s.it slot result) := by
  have steady := steady_settle s.it slot result
  refine ⟨steady.limit.trans within.limit, steady.frames ▸ within.depth, ?_⟩
  rcases rested_of_ended within rested ended with set | ⟨empty, outermost⟩
  · exact Or.inl (steady.poisoned.trans set)
  · exact Or.inr ⟨steady.frames.trans empty, steady.active.trans outermost⟩

theorem moves_calling {it it' : Interpreter} (steady : it.Steady it') (name : String)
    (args : List Value) : Moves it [] (calling it' name args) :=
  moves_invoke steady rfl _ _ _

/-- A request begins with no work, or with the one call it asks for. -/
theorem moves_start (it : Interpreter) (request : Request) : Moves it [] (request.start it) := by
  cases request with
  | load program => exact .keeps (.refl it) rfl trivial
  | run => exact moves_calling (.refl it) _ _
  | call name args =>
    have steady : it.Steady { it with heap := (buildAll it it.heap args).2 } :=
      ⟨rfl, rfl, rfl, rfl, .refl _⟩
    exact moves_calling steady _ _
  | value g => exact .keeps ⟨rfl, rfl, rfl, rfl, .refl _⟩ rfl trivial
  | drop slot => exact .keeps ⟨rfl, rfl, rfl, rfl, .refl _⟩ rfl trivial
  | collect => exact .keeps ⟨rfl, rfl, rfl, rfl, .refl _⟩ rfl trivial
  | dump message =>
    exact .keeps ⟨rfl, rfl, rfl, rfl, it.diag.limit_write _⟩ rfl (Control.running_ofDump _)

theorem within_start (it : Interpreter) (shallow : it.frames.size ≤ it.limit + 1)
    (request : Request) : Within it (request.start it) :=
  within_moves (within_origin shallow) trivial (moves_start it request)

theorem reached_within {config : Config} {streams : Streams} (reached : Reached config streams s) :
    ∃ origin, origin.limit = config.maxDepth ∧ Rested origin ∧ Within origin s := by
  induction reached with
  | new => exact ⟨.new config streams, rfl, Or.inr ⟨rfl, rfl⟩, within_origin (Nat.zero_le _)⟩
  | step before ih =>
    obtain ⟨origin, limit, rested, within⟩ := ih
    exact ⟨origin, limit, rested, within_step within⟩
  | @turn s result before ended slot request ih =>
    obtain ⟨origin, limit, rested, within⟩ := ih
    obtain ⟨same, shallow, idle⟩ := idle_settle within rested ended slot
    exact ⟨settle s.it slot result, same.trans limit, idle, within_start _ (same ▸ shallow) request⟩

/-- A poisoned interpreter refuses every call of a function, wherever the call stands. -/
theorem run_enter_poisoned {it : Interpreter} (set : it.poisoned = true) (steps : Nat)
    (pos : Position) (ref : Nat) (args : List Value) (work : List Pending) :
    run (steps + 1) (enter it pos ref args work) = some (.error (.fatal .poisoned), it) := by
  have refused : enter it pos ref args work = ⟨it, .stop .poisoned, work⟩ := by
    unfold enter
    exact if_pos set
  rw [refused]
  rfl

theorem callFunction_poisoned {it : Interpreter} (set : it.poisoned = true) (steps : Nat) {ref : Nat}
    (args : List Value) {name : String} (noBuiltin : Builtin.ofName? name = none)
    (found : it.arena.findClosure it.active name = some ref) :
    it.callFunction (steps + 1) name args = some (.error (.fatal .poisoned), it) := by
  have starts : calling it name args = enter it it.pos ref args [] := by
    unfold calling invoke
    rw [noBuiltin, found]
  unfold Interpreter.callFunction
  rw [starts]
  exact run_enter_poisoned set steps it.pos ref args []

theorem disciplined_of_perform {it last : Interpreter} (shallow : it.frames.size ≤ it.limit + 1)
    {steps : Nat} {t : Turn} (ran : t.perform steps it = some (result, last)) :
    Disciplined it result last := by
  obtain ⟨⟨result, it'⟩, performed, same⟩ := Option.map_eq_some_iff.mp ran
  obtain ⟨rfl, rfl⟩ := Prod.mk.inj same
  obtain ⟨s, within, ended, rfl⟩ :=
    run_ends (P := Within it) (fun _ => within_step) performed (within_start it shallow t.request)
  have disciplined := disciplined_of_ended within ended
  have steady := steady_settle s.it t.slot result
  refine ⟨fun noFatal => ?_, fun limit same => ?_, fun set => ?_⟩
  · obtain ⟨frames, active, poisoned⟩ := disciplined.restored noFatal
    exact ⟨steady.frames.trans frames, steady.active.trans active, steady.poisoned.trans poisoned⟩
  · obtain ⟨limit, poisoned, deep⟩ := disciplined.overflow limit same
    exact ⟨limit, steady.poisoned.trans poisoned, (congrArg Array.size steady.frames).trans deep⟩
  · obtain ⟨poisoned, frames, active⟩ := disciplined.forever set
    exact ⟨steady.poisoned.trans poisoned, steady.frames.trans frames, steady.active.trans active⟩

/-- At every moment the stack holds at most one frame more than the limit. Between two requests no
call is in progress or all calls are refused, and a request that ends without a fatal stop leaves the
stack, the active scope and the refusal of calls as it found them. -/
theorem call_stack_discipline {config : Config} {streams : Streams}
    (reached : Reached config streams s) :
    s.it.frames.size ≤ config.maxDepth + 1 ∧
    ∀ result slot, s.outcome? = some result →
      let it := settle s.it slot result
      it.limit = config.maxDepth ∧ Rested it ∧
      (it.poisoned = true → ∀ steps ref args,
        (∀ pos work,
          run (steps + 1) (enter it pos ref args work) = some (.error (.fatal .poisoned), it)) ∧
        ∀ name, Builtin.ofName? name = none → it.arena.findClosure it.active name = some ref →
          it.callFunction (steps + 1) name args = some (.error (.fatal .poisoned), it)) ∧
      ∀ steps (t : Turn) after last, t.perform steps it = some (after, last) →
        Disciplined it after last := by
  obtain ⟨origin, limit, rested, within⟩ := reached_within reached
  refine ⟨limit ▸ within.depth, fun result slot ended => ?_⟩
  obtain ⟨same, shallow, idle⟩ := idle_settle within rested ended slot
  refine ⟨same.trans limit, idle, fun set steps ref args => ⟨fun pos work => ?_, ?_⟩,
    fun steps t after last ran => disciplined_of_perform (same ▸ shallow) ran⟩
  · exact run_enter_poisoned set steps pos ref args work
  · exact fun name noBuiltin found => callFunction_poisoned set steps args noBuiltin found

/-- A program that calls itself without end. -/
def endless : Syntax.Program := ⟨[.define .none "main" [] [.call .none "main" [] []]]⟩

theorem call_stack_discipline_endless :
    ∃ s, Reached ⟨0, 7⟩ {} s ∧ s.outcome? = some (.error (.fatal (.stackOverflow 0))) ∧
      s.it.frames.size = 1 ∧ s.it.poisoned = true ∧
      ∀ steps (t : Turn) after last, t.perform steps s.it = some (after, last) →
        last.poisoned = true ∧ last.frames = s.it.frames ∧ last.active = s.it.active := by
  have loading : Reached ⟨0, 7⟩ {} ((Request.load endless).start (.new ⟨0, 7⟩ {})) :=
    .turn .new rfl none (.load endless)
  have deep := (Reached.turn loading.step.step.step rfl none .run).step
  refine ⟨_, deep, rfl, rfl, rfl, fun steps t after last ran => ?_⟩
  obtain ⟨_, between⟩ := call_stack_discipline deep
  obtain ⟨_, _, _, disciplined⟩ := between _ none rfl
  exact (disciplined steps t after last ran).forever rfl

end Host

end RetroScript

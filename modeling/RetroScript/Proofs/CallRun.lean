import Mathlib.Logic.Function.Iterate
import RetroScript.Proofs.Effects
import RetroScript.Proofs.Soundness

/-!
# The run of one call

A call in the middle of a program runs above the work that waits for it. `runCall` follows it to its end,
and `Amid` says that all the way the work below stays as it is, and so do the frames below.
-/

namespace RetroScript

theorem Interpreter.Steady.symm {it it' : Interpreter} (steady : it.Steady it') : it'.Steady it :=
  ⟨steady.limit.symm, steady.frames.symm, steady.active.symm, steady.poisoned.symm, steady.diag.symm⟩

namespace Machine

/-- A state without its outermost `n` pieces of work. -/
def State.above (n : Nat) (s : State) : State :=
  { s with work := s.work.take (s.work.length - n) }

/-- Runs until all work above the outermost `base` pieces is done, at most `n` steps: the outcome and the
interpreter after it. -/
def runCall (base : Nat) : Nat → State → Option Interpreter.Outcome
  | 0, _ => none
  | n + 1, s =>
    match (s.above base).outcome? with
    | some outcome => some (outcome, s.it)
    | none => runCall base n (step s)

theorem above_append (it : Interpreter) (control : Control) (front base : List Pending) :
    (State.mk it control (front ++ base)).above base.length = ⟨it, control, front⟩ := by
  simp [State.above]

theorem above_done (it : Interpreter) (control : Control) (work : List Pending) :
    (State.mk it control work).above work.length = ⟨it, control, []⟩ := above_append it control [] work

variable {origin it : Interpreter} {front base : List Pending} {s : State}

/-- With no work below, this is a run to the end. -/
theorem runCall_zero (n : Nat) (s : State) : runCall 0 n s = run n s := by
  have whole : ∀ s : State, s.above 0 = s := fun s => by simp [State.above]
  induction n generalizing s with
  | zero => rfl
  | succ n ih =>
    rw [runCall, run, whole s]
    cases s.outcome? with
    | some result => rfl
    | none => exact ih (step s)

theorem runCall_ended {n : Nat} {result : Except Error Value} (ended : (s.above n).outcome? = some result)
    (k : Nat) : runCall n (k + 1) s = some (result, s.it) := by
  rw [runCall, ended]

theorem runCall_going {n : Nat} (going : (s.above n).outcome? = none) (k : Nat) :
    runCall n (k + 1) s = runCall n k (step s) := by
  rw [runCall, going]

theorem enter_append (it : Interpreter) (pos : Position) (ref : Nat) (args : List Value)
    (front base : List Pending) :
    enter it pos ref args (front ++ base) =
      { enter it pos ref args front with work := (enter it pos ref args front).work ++ base } := by
  unfold enter
  dsimp only
  repeat' split
  all_goals rfl

theorem outcome?_waiting {control : Control} (running : control.Running) (pending : Pending)
    (rest : List Pending) : (State.mk it control (pending :: rest)).outcome? = none := by
  cases control with
  | stop fatal => exact running.elim
  | _ => rfl

theorem outcome?_stop (it : Interpreter) (fatal : Fatal) (work : List Pending) :
    (State.mk it (.stop fatal) work).outcome? = some (.error (.fatal fatal)) := by
  cases work <;> rfl

/-- What ends a run that has no work ends a call that has none. -/
theorem step_call {control : Control} (running : control.Running) {result : Except Error Value}
    (ended : (State.mk it control []).outcome? = some result) :
    ∃ returned after, (∀ it callee scope work, step ⟨it, control, .call callee scope :: work⟩ =
        ⟨exit it callee scope returned work, after, work⟩) ∧
      ∀ it, (State.mk it after []).outcome? = some result := by
  cases control with
  | give v =>
    cases ended
    exact ⟨some v, .give v, fun _ _ _ _ => rfl, fun _ => rfl⟩
  | finish value =>
    cases ended
    exact ⟨value, .give (value.getD .null), fun _ _ _ _ => rfl, fun _ => rfl⟩
  | fail pos fault =>
    cases ended
    exact ⟨none, .fail pos fault, fun _ _ _ _ => rfl, fun _ => rfl⟩
  | stop fatal => exact running.elim
  | load items => cases ended
  | eval e => cases ended
  | exec commands => cases ended

/-- Where the call is that `work` waits for: it has come to a fatal stop, it goes on, or its next step is
its last. -/
inductive CallCase (callee : Nat) (front work : List Pending) (s : State) : Prop where
  | stopped (fatal : Fatal) (ended : (s.above work.length).outcome? = some (.error (.fatal fatal)))
  | goes (inside : (State.mk s.it s.control front).outcome? = none)
      (going : (s.above work.length).outcome? = none)
  | ends {returned : Option Value} {after : Control} {result : Except Error Value} (final : front = [])
      (exits : ∀ it scope, step ⟨it, s.control, .call callee scope :: work⟩ =
        ⟨exit it callee scope returned work, after, work⟩)
      (ended : ∀ it, (State.mk it after []).outcome? = some result)
      (going : (s.above work.length).outcome? = none)

theorem call_cases {callee : Nat} {scope : ScopeId} {work : List Pending}
    (split : s.work = front ++ .call callee scope :: work) : CallCase callee front work s := by
  obtain ⟨it, control, _⟩ := s
  obtain rfl := split
  have above : (State.mk it control (front ++ .call callee scope :: work)).above work.length =
      ⟨it, control, front ++ [.call callee scope]⟩ := by
    have whole := above_append it control (front ++ [.call callee scope]) work
    rwa [List.append_assoc] at whole
  by_cases running : control.Running
  · have going : (State.mk it control (front ++ [.call callee scope])).outcome? = none := by
      cases front with
      | nil => exact outcome?_waiting running _ _
      | cons pending rest => exact outcome?_waiting running _ _
    cases inside : (State.mk it control front).outcome? with
    | none => exact .goes inside (above ▸ going)
    | some result =>
      obtain ⟨final, _⟩ | ⟨fatal, stopped, _⟩ := Host.ended_cases inside
      · obtain rfl : front = [] := final
        obtain ⟨returned, after, exits, ended⟩ := step_call running inside
        exact .ends rfl (fun it scope => exits it callee scope work) ended (above ▸ going)
      · obtain rfl : control = .stop fatal := stopped
        exact running.elim
  · cases control with
    | stop fatal => exact .stopped fatal (above ▸ outcome?_stop it fatal _)
    | _ => exact absurd trivial running

/-- The last step of a call, and its outcome. -/
theorem runCall_exit {callee : Nat} {scope : ScopeId} {work : List Pending} {returned : Option Value}
    {after : Control} {result : Except Error Value} (waiting : s.work = .call callee scope :: work)
    (exits : ∀ it scope, step ⟨it, s.control, .call callee scope :: work⟩ =
      ⟨exit it callee scope returned work, after, work⟩)
    (ended : ∀ it, (State.mk it after []).outcome? = some result) :
    step s = ⟨exit s.it callee scope returned work, after, work⟩ ∧
      ∀ n, runCall work.length (n + 1) (step s) = some (result, exit s.it callee scope returned work) := by
  obtain ⟨it, control, _⟩ := s
  obtain rfl := waiting
  have last := exits it scope
  refine ⟨last, fun n => ?_⟩
  rw [last]
  exact runCall_ended (by rw [above_done]; exact ended _) n

theorem exit_store (it : Interpreter) (callee : Nat) (scope : ScopeId) (result : Option Value)
    (work : List Pending) : (exit it callee scope result work).heap = it.heap ∧
      (exit it callee scope result work).consts = it.consts := by
  unfold exit
  dsimp only
  split <;> exact ⟨rfl, rfl⟩

/-- A call is refused by a fatal stop or a fault, or has its scope and its frame. -/
theorem enter_cases (it : Interpreter) (pos : Position) (ref : Nat) (args : List Value)
    (work : List Pending) :
    (∃ it' fatal, enter it pos ref args work = ⟨it', .stop fatal, work⟩) ∨
    (∃ fault, enter it pos ref args work = ⟨it, .fail pos fault, work⟩) ∨
    it.frames.size ≤ it.limit ∧ enter it pos ref args work =
      ⟨(it.enter (it.heap.closure ref) args pos).2, .exec (it.heap.closure ref).body,
        .call ref (it.enter (it.heap.closure ref) args pos).1 :: work⟩ := by
  unfold enter
  dsimp only
  split
  · exact Or.inl ⟨_, _, rfl⟩
  · split
    · exact Or.inr (Or.inl ⟨_, rfl⟩)
    · split
      · exact Or.inl ⟨_, _, rfl⟩
      · next room => exact Or.inr (Or.inr ⟨Nat.not_lt.mp room, rfl⟩)

/-- A state in the middle of the work `front`, above `base`; `origin` was there when that work began. -/
structure Amid (origin : Interpreter) (base front : List Pending) (s : State) : Prop where
  split : s.work = front ++ base
  within : Within origin ⟨s.it, s.control, front⟩

theorem Amid.above (amid : Amid origin base front s) :
    s.above base.length = ⟨s.it, s.control, front⟩ := by
  obtain ⟨it, control, work⟩ := s
  obtain rfl : work = front ++ base := amid.split
  exact above_append it control front base

theorem Amid.held (amid : Amid origin base front s) :
    ∀ v ∈ (State.mk s.it s.control front).held, v ∈ s.held := by
  intro v member
  unfold State.held heldBy
  rw [amid.split, List.flatMap_append, ← List.append_assoc]
  exact List.mem_append_left _ member

theorem amid_entered (room : it.frames.size ≤ it.limit) (c : Closure) (args : List Value) (pos : Position)
    (body : List Syntax.Command) (base : List Pending) :
    Amid (it.enter c args pos).2 base [] ⟨(it.enter c args pos).2, .exec body, base⟩ := by
  have shallow : (it.enter c args pos).2.frames.size ≤ (it.enter c args pos).2.limit + 1 := by
    simpa [Interpreter.enter] using room
  exact ⟨rfl, within_moves (within_origin shallow) trivial (.keeps (.refl _) rfl trivial)⟩

theorem amid_step (amid : Amid origin base front s) (going : (s.above base.length).outcome? = none) :
    ∃ front', Amid origin base front' (step s) := by
  have within := amid.within
  rw [amid.above] at going
  cases step_above s.it.encloses_all (fun _ _ => trivial) amid.split with
  | acts running acts =>
    generalize step s = s' at acts
    cases acts with
    | @goes it' control front' changes same held given goesOn =>
      exact ⟨front', rfl, within_moves within running (.keeps changes.steady same goesOn)⟩
    | @enters it' front' changes same held pos ref args callee valid =>
      rw [enter_append]
      exact ⟨_, rfl, within_enter within running changes.steady same pos ref args⟩
  | leaves callee scope result control rest running waiting given goesOn after =>
    rw [after]
    have left := within_leave within running waiting result goesOn
    have steady := (exit_steady s.it callee scope result rest).symm.trans
      (exit_steady s.it callee scope result (rest ++ base))
    exact ⟨rest, rfl, within_moves left goesOn (.keeps steady rfl goesOn)⟩
  | rests ended =>
    rw [going] at ended
    cases ended

end Machine

namespace Host

open Machine

theorem Reached.steps {config : Config} {streams : Streams} {s : State} (reached : Reached config streams s)
    (n : Nat) : Reached config streams (Machine.step^[n] s) := by
  induction n with
  | zero => exact reached
  | succ n ih =>
    rw [Function.iterate_succ_apply']
    exact ih.step

/-- A session comes to a call of the function `ref`: the next step of the program makes it, or the host
does. -/
inductive Calls (config : Config) (streams : Streams) (it : Interpreter) (pos : Position) (ref : Nat)
    (args : List Value) (work : List Pending) : Prop where
  | program {s : State} (before : Reached config streams s) (same : { s.it with pos := it.pos } = it)
      (starts : step s = enter it pos ref args work)
  | host {s : State} {result : Except Error Value} (before : Reached config streams s)
      (ended : s.outcome? = some result) (slot : Option Nat) (name : String) (given : List Given)
      (same : { settle s.it slot result with heap := it.heap } = it)
      (starts : (Request.call name given).start (settle s.it slot result) = enter it pos ref args work)

variable {config : Config} {streams : Streams} {it : Interpreter} {pos : Position} {ref : Nat}
  {args : List Value} {work : List Pending}

theorem Calls.reached (calls : Calls config streams it pos ref args work) :
    Reached config streams (enter it pos ref args work) := by
  cases calls with
  | program before same starts => exact starts ▸ before.step
  | host before ended slot name given same starts => exact starts ▸ before.turn ended slot (.call name given)

theorem arena_settle (it : Interpreter) (slot : Option Nat) (result : Except Error Value) :
    (settle it slot result).arena = it.arena ∧ (settle it slot result).active = it.active := by
  unfold settle
  split <;> exact ⟨rfl, rfl⟩

theorem Calls.arena (calls : Calls config streams it pos ref args work) :
    it.arena.WellFormed ∧ it.arena.InUse it.active := by
  cases calls with
  | program before same starts =>
    obtain ⟨V, sound, _⟩ := reached_valid before
    rw [← same]
    exact ⟨sound.arena, sound.carries.active⟩
  | @host s result before ended slot name given same starts =>
    obtain ⟨V, sound, _⟩ := reached_valid before
    obtain ⟨arena, active⟩ := arena_settle s.it slot result
    have inUse : (settle s.it slot result).arena.InUse (settle s.it slot result).active := by
      rw [arena, active]
      exact sound.carries.active
    rw [← same]
    exact ⟨arena ▸ sound.arena, inUse⟩

end Host

end RetroScript

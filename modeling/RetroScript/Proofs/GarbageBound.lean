import RetroScript.Proofs.Soundness

/-!
# A bound on garbage

A call takes one scope and one frame. At its end it gives the scope back or leaves it behind, and then
counts it. So the scopes in use are those of the last collection, those left behind since, and one for
each call in progress: `garbage_bounded`.
-/

namespace RetroScript

namespace Arena

theorem live_modify (a : Arena) (id : ScopeId) (f : Scope → Scope) : (a.modify id f).live = a.live := by
  simp [live, modify]

theorem live_push (a : Arena) (function : String) (parent : ScopeId) :
    (a.push function parent).2.live ≤ a.live + 1 := by
  unfold push
  split
  · next id free list =>
    simp only [live, list, Array.size_modify, List.length_cons]
    omega
  · next list =>
    simp [live, list]

end Arena

namespace Interpreter

/-- The scopes in use are accounted for, and a collection is not overdue. -/
structure Bounded (it : Interpreter) : Prop where
  below : it.retained < it.threshold
  least : leastThreshold ≤ it.threshold
  live : it.arena.live ≤ it.threshold + it.retained + it.frames.size

/-- Two interpreters with equally many scopes and the same account of them. -/
structure Tallied (it it' : Interpreter) : Prop where
  live : it'.arena.live = it.arena.live
  retained : it'.retained = it.retained
  threshold : it'.threshold = it.threshold
  frames : it'.frames = it.frames

variable {it it' last : Interpreter}

theorem Tallied.refl (it : Interpreter) : it.Tallied it := ⟨rfl, rfl, rfl, rfl⟩

theorem Tallied.trans (first : it.Tallied it') (second : it'.Tallied last) : it.Tallied last :=
  ⟨second.live.trans first.live, second.retained.trans first.retained,
    second.threshold.trans first.threshold, second.frames.trans first.frames⟩

theorem Bounded.tallied (bounded : it.Bounded) (tallied : it.Tallied it') : it'.Bounded := by
  obtain ⟨below, least, live⟩ := bounded
  refine ⟨?_, ?_, ?_⟩
  · rw [tallied.retained, tallied.threshold]
    exact below
  · rw [tallied.threshold]
    exact least
  · rw [tallied.live, tallied.retained, tallied.threshold, tallied.frames]
    exact live

theorem tallied_modify (it : Interpreter) (id : ScopeId) (f : Scope → Scope) :
    it.Tallied { it with arena := it.arena.modify id f } :=
  ⟨it.arena.live_modify id f, rfl, rfl, rfl⟩

theorem tallied_makeClosure (it : Interpreter) (name : String) (params : List String)
    (body : List Syntax.Command) : it.Tallied (it.makeClosure name params body).2 :=
  ⟨it.arena.live_modify _ _, rfl, rfl, rfl⟩

theorem tallied_define (it : Interpreter) (name : String) (params : List String)
    (body : List Syntax.Command) : it.Tallied (it.define name params body) :=
  (it.tallied_makeClosure name params body).trans (tallied_modify _ _ _)

theorem tallied_call (it : Interpreter) (b : Builtin) (args : List Value) :
    it.Tallied (b.call it args).2 := by
  have frame := (Builtin.answers_call it b args).frame
  refine ⟨?_, ?_, ?_, ?_⟩
  all_goals rw [frame]

theorem Bounded.enter (bounded : it.Bounded) (c : Closure) (args : List Value) (pos : Position) :
    (it.enter c args pos).2.Bounded := by
  have filled : (it.enter c args pos).2.arena.live = (it.arena.push c.name c.scope).2.live := by
    rw [arena_enter, Arena.live_modify]
  -- The frame of the call makes up for its scope.
  have pushed := it.arena.live_push c.name c.scope
  have before := bounded.live
  refine ⟨bounded.below, bounded.least, ?_⟩
  show _ ≤ it.threshold + it.retained + (it.frames.push _).size
  rw [filled, Array.size_push]
  omega

/-- A call that ends gives its scope back, or leaves it behind and counts it. -/
theorem Bounded.leave (bounded : it.Bounded) (scope : ScopeId) :
    (it.leave scope).arena.live ≤ it.threshold + (it.leave scope).retained + (it.leave scope).frames.size := by
  obtain ⟨below, least, live⟩ := bounded
  simp only [Interpreter.leave, Array.size_pop]
  rcases it.arena.release_cases scope with ⟨_, kept⟩ | ⟨_, _, recycled⟩
  · -- One frame less, and one scope more that is counted as left behind.
    simp only [kept, Bool.false_eq_true, if_false]
    omega
  · have fewer : (it.arena.release scope).2.live = it.arena.live - 1 := by
      simp only [recycled, Arena.live, Arena.modify, Array.size_modify, List.length_cons]
      omega
    rw [fewer, recycled, if_pos rfl]
    omega

theorem bounded_collect (it : Interpreter) (held : List Value) : (it.collect held).2.Bounded := by
  have positive : 0 < leastThreshold := by decide
  refine ⟨?_, Nat.le_max_left _ _, ?_⟩
  · exact Nat.lt_of_lt_of_le positive (Nat.le_max_left _ _)
  · show (it.collect held).2.arena.live ≤ max leastThreshold (it.collect held).2.arena.live + 0 + _
    omega

end Interpreter

namespace Machine

open Syntax (Expr Command Item)

/-- Whether the next step runs a collection: it ends a call after which one is due. -/
def State.collects (s : State) : Bool :=
  match s.control, s.work with
  | .give _, .call _ scope :: _ => (s.it.leave scope).isDue
  | .finish _, .call _ scope :: _ => (s.it.leave scope).isDue
  | .fail _ _, .call _ scope :: _ => (s.it.leave scope).isDue
  | _, _ => false

theorem collects_of_not_call {it : Interpreter} {control : Control} {pending : Pending}
    {work : List Pending} (notCall : ∀ callee scope, pending ≠ .call callee scope) :
    (State.mk it control (pending :: work)).collects = false := by
  unfold State.collects
  split
  · next waiting => exact absurd (List.cons.inj waiting).1 (notCall _ _)
  · next waiting => exact absurd (List.cons.inj waiting).1 (notCall _ _)
  · next waiting => exact absurd (List.cons.inj waiting).1 (notCall _ _)
  · rfl

/-- What a step does that ends no call: scopes stay as many as they are, or a call starts. -/
inductive Tallies (it : Interpreter) : State → Prop where
  | keeps {s : State} (tallied : it.Tallied s.it) : Tallies it s
  | enters {it' : Interpreter} (tallied : it.Tallied it') (pos : Position) (ref : Nat)
      (args : List Value) (work : List Pending) : Tallies it (enter it' pos ref args work)

section

variable {it it' : Interpreter} {work : List Pending} (tallied : it.Tallied it')

include tallied

theorem tallies_giveOrFail (pos : Position) (r : Except Fault Value) :
    Tallies it (giveOrFail it' pos r work) := by
  unfold giveOrFail
  split <;> exact .keeps tallied

theorem tallies_changeOrFail (pos : Position) (r : Except Fault Heap.Place)
    (change : Heap → Heap.Place → Heap) : Tallies it (changeOrFail it' pos r change work) := by
  unfold changeOrFail
  split
  · exact .keeps (tallied.trans ⟨rfl, rfl, rfl, rfl⟩)
  · exact .keeps tallied

theorem tallies_invoke (pos : Position) (name : String) (args : List Value) :
    Tallies it (invoke it' pos name args work) := by
  unfold invoke
  split
  · next b _ =>
    have after := it'.tallied_call b args
    split
    · next same =>
      rw [same] at after
      exact .keeps (tallied.trans after)
    · next same =>
      rw [same] at after
      exact .keeps (tallied.trans after)
  · split
    · exact .enters tallied _ _ _ _
    · exact .keeps tallied

theorem tallies_gather (done : List Value) (rest : List Expr) (use : Use) :
    Tallies it (gather it' done rest use work) := by
  unfold gather complete
  split
  · split
    · exact .keeps (tallied.trans ⟨rfl, rfl, rfl, rfl⟩)
    · exact tallies_invoke tallied _ _ _
    · exact .enters tallied _ _ _ _
    · exact .keeps tallied
  · exact .keeps tallied

theorem tallies_gatherEntries (done : Dict Value) (rest : List (String × Expr)) :
    Tallies it (gatherEntries it' done rest work) := by
  unfold gatherEntries
  split
  · exact .keeps (tallied.trans ⟨rfl, rfl, rfl, rfl⟩)
  · exact .keeps tallied

theorem tallies_reachInto (pos : Position) (name : String) (key : Expr) (rest : List Expr)
    (touch : Touch) : Tallies it (reachInto it' pos name key rest touch work) := by
  unfold reachInto
  split <;> exact .keeps tallied

theorem tallies_reachOn (pos : Position) (container key : Value) (rest : List Expr) (touch : Touch) :
    Tallies it (reachOn it' pos container key rest touch work) := by
  unfold reachOn
  split
  · split <;> exact .keeps tallied
  · split <;> exact tallies_changeOrFail tallied _ _ _

theorem tallies_assignTo (pos : Position) (name : String) (indexes : List Expr) (v : Value) :
    Tallies it (assignTo it' pos name indexes v work) := by
  unfold assignTo
  split
  · exact tallies_reachInto tallied _ _ _ _ _
  · split
    · exact .keeps tallied
    · exact .keeps (tallied.trans (it'.tallied_modify _ _))

theorem tallies_stepLoad (items : List Item) : Tallies it (stepLoad it' work items) := by
  unfold stepLoad
  split <;> exact .keeps (tallied.trans ⟨rfl, rfl, rfl, rfl⟩)

theorem tallied_defineItems (items : List Item) : it.Tallied (defineItems it' items) := by
  fun_induction defineItems it' items with
  | case1 it' => exact tallied
  | case2 it' pos name params body rest ih => exact ih (tallied.trans (it'.tallied_define _ _ _))
  | case3 it' item rest _ ih => exact ih tallied

theorem tallies_finishLoad (items : List Item) : Tallies it (finishLoad it' items work) := by
  unfold finishLoad
  dsimp only
  split <;> exact .keeps (tallied_defineItems tallied items)

theorem tallies_stepEval (e : Expr) : Tallies it (stepEval it' work e) := by
  cases e with
  | array pos items => exact tallies_gather tallied _ _ _
  | map pos entries => exact tallies_gatherEntries tallied _ _
  | «variable» pos name => exact tallies_giveOrFail tallied _ _
  | lambda pos params body =>
    have made := it'.tallied_makeClosure ("_anon_" ++ toString it'.lambdas) params body
    exact .keeps (tallied.trans (made.trans ⟨rfl, rfl, rfl, rfl⟩))
  | call pos name args more => exact tallies_gather tallied _ _ _
  | _ => exact .keeps tallied

theorem tallies_stepCommand (rest : List Command) (c : Command) :
    Tallies it (stepCommand it' rest work c) := by
  cases c with
  | delete pos name indexes =>
    cases indexes with
    | nil => exact .keeps tallied
    | cons key keys => exact tallies_reachInto tallied _ _ _ _ _
  | define pos name params body => exact .keeps (tallied.trans (it'.tallied_define _ _ _))
  | call pos name args more => exact tallies_gather tallied _ _ _
  | _ => exact .keeps tallied

theorem tallies_stepGive (v : Value) {pending : Pending}
    (notCall : ∀ callee scope, pending ≠ .call callee scope) :
    Tallies it (stepGive it' v work pending) := by
  cases pending with
  | operate pos op left => exact tallies_giveOrFail tallied _ _
  | select pos base => exact tallies_giveOrFail tallied _ _
  | values done rest use => exact tallies_gather tallied _ _ _
  | entries done name rest => exact tallies_gatherEntries tallied _ _
  | groups pos more =>
    cases more with
    | nil => exact .keeps tallied
    | cons args more => exact tallies_gather tallied _ _ _
  | assign pos name indexes => exact tallies_assignTo tallied _ _ _ _
  | reach pos container rest touch => exact tallies_reachOn tallied _ _ _ _ _
  | test condition body =>
    simp only [stepGive]
    split <;> exact .keeps tallied
  | call callee scope => exact absurd rfl (notCall callee scope)
  | constant name => exact .keeps (tallied.trans ⟨rfl, rfl, rfl, rfl⟩)
  | functions items => exact tallies_finishLoad tallied _
  | _ => exact .keeps tallied

end

/-- Everything a step can do to the account of scopes. -/
inductive StepTally (s s' : State) : Prop where
  | tallies (quiet : s.collects = false) (tallies : Tallies s.it s')
  | leaves (callee : Nat) (scope : ScopeId) (result : Option Value) (control : Control)
      (work : List Pending) (collects : s.collects = (s.it.leave scope).isDue)
      (after : s' = ⟨exit s.it callee scope result work, control, work⟩)

theorem step_tally (s : State) : StepTally s (step s) := by
  obtain ⟨it, control, work⟩ := s
  have tallied := Interpreter.Tallied.refl it
  cases control with
  | load items => exact .tallies rfl (tallies_stepLoad tallied items)
  | eval e => exact .tallies rfl (tallies_stepEval tallied e)
  | exec commands =>
    cases commands with
    | nil => exact .tallies rfl (.keeps tallied)
    | cons c cs =>
      have moved : it.Tallied { it with pos := c.pos } := ⟨rfl, rfl, rfl, rfl⟩
      exact .tallies rfl (tallies_stepCommand moved cs c)
  | give v =>
    cases work with
    | nil => exact .tallies rfl (.keeps tallied)
    | cons pending work =>
      rcases call_or_not pending with ⟨callee, scope, rfl⟩ | notCall
      · exact .leaves callee scope (some v) (.give v) work rfl rfl
      · exact .tallies (collects_of_not_call notCall) (tallies_stepGive tallied v notCall)
  | finish result =>
    cases work with
    | nil => exact .tallies rfl (.keeps tallied)
    | cons pending work =>
      rcases call_or_not pending with ⟨callee, scope, rfl⟩ | notCall
      · exact .leaves callee scope result (.give (result.getD .null)) work rfl rfl
      · refine .tallies (collects_of_not_call notCall) ?_
        show Tallies it (stepFinish it result work pending)
        rcases stepFinish_eq it result work notCall with given | ⟨v, _, passed⟩
        · rw [given]
          exact tallies_stepGive tallied _ notCall
        · rw [passed]
          exact .keeps tallied
  | fail pos fault =>
    cases work with
    | nil => exact .tallies rfl (.keeps tallied)
    | cons pending work =>
      cases pending with
      | call callee scope => exact .leaves callee scope none (.fail pos fault) work rfl rfl
      | _ => exact .tallies rfl (.keeps tallied)
  | stop fatal => exact .tallies rfl (.keeps tallied)

/-! ### Runs -/

theorem enter_tally {it : Interpreter} (bounded : it.Bounded) (pos : Position) (ref : Nat)
    (args : List Value) (work : List Pending) :
    (enter it pos ref args work).it.Bounded ∧
      (enter it pos ref args work).it.threshold = it.threshold := by
  unfold enter
  dsimp only
  repeat' split
  · exact ⟨bounded, rfl⟩
  · exact ⟨bounded, rfl⟩
  · exact ⟨⟨bounded.below, bounded.least, bounded.live⟩, rfl⟩
  · exact ⟨bounded.enter _ args pos, rfl⟩

theorem Tallies.bounded {it : Interpreter} {s : State} (tallies : Tallies it s) (bounded : it.Bounded) :
    s.it.Bounded ∧ s.it.threshold = it.threshold := by
  cases tallies with
  | keeps tallied => exact ⟨bounded.tallied tallied, tallied.threshold⟩
  | enters tallied pos ref args work =>
    obtain ⟨after, same⟩ := enter_tally (bounded.tallied tallied) pos ref args work
    exact ⟨after, same.trans tallied.threshold⟩

/-- The threshold after a step or a request that may have collected. -/
def nextThreshold (collected : Bool) (before live : Nat) : Nat :=
  if collected then max Interpreter.leastThreshold live else before

theorem exit_tally {it : Interpreter} (bounded : it.Bounded) (callee : Nat) (scope : ScopeId)
    (result : Option Value) (work : List Pending) :
    let last := exit it callee scope result work
    last.Bounded ∧ last.threshold = nextThreshold (it.leave scope).isDue it.threshold last.arena.live := by
  have live := bounded.leave scope
  unfold exit nextThreshold
  dsimp only
  split
  · exact ⟨Interpreter.bounded_collect _ _, rfl⟩
  · next notDue =>
    have below : (it.leave scope).retained < (it.leave scope).threshold := by
      simpa [Interpreter.isDue] using notDue
    exact ⟨⟨below, bounded.least, live⟩, rfl⟩

theorem step_bounded {s : State} (bounded : s.it.Bounded) :
    (step s).it.Bounded ∧
      (step s).it.threshold = nextThreshold s.collects s.it.threshold (step s).it.arena.live := by
  cases step_tally s with
  | tallies quiet tallies =>
    rw [quiet]
    exact tallies.bounded bounded
  | leaves callee scope result control work collects after =>
    rw [after, collects]
    exact exit_tally bounded callee scope result work

end Machine

namespace Host

open Machine

def Request.collects : Request → Bool
  | .collect => true
  | _ => false

/-- The states that a session can lead to, each with the number of scopes in use right after the last
collection, if there has been one. -/
inductive Since (config : Config) (streams : Streams) : Option Nat → State → Prop where
  | new : Since config streams none ⟨.new config streams, .finish none, []⟩
  | step {last : Option Nat} {s : State} (before : Since config streams last s) :
      Since config streams (if s.collects then some (step s).it.liveScopes else last) (step s)
  | turn {last : Option Nat} {s : State} {result : Except Error Value}
      (before : Since config streams last s) (ended : s.outcome? = some result) (slot : Option Nat)
      (request : Request) :
      Since config streams
        (if request.collects then some (request.start (settle s.it slot result)).it.liveScopes else last)
        (request.start (settle s.it slot result))

variable {config : Config} {streams : Streams} {s : State}

theorem reached_since (reached : Reached config streams s) : ∃ last, Since config streams last s := by
  induction reached with
  | new => exact ⟨none, .new⟩
  | step before ih =>
    obtain ⟨last, since⟩ := ih
    exact ⟨_, since.step⟩
  | turn before ended slot request ih =>
    obtain ⟨last, since⟩ := ih
    exact ⟨_, since.turn ended slot request⟩

theorem tallied_settle (it : Interpreter) (slot : Option Nat) (result : Except Error Value) :
    it.Tallied (settle it slot result) := by
  unfold settle
  split <;> exact ⟨rfl, rfl, rfl, rfl⟩

theorem start_bounded {it : Interpreter} (bounded : it.Bounded) (request : Request) :
    (request.start it).it.Bounded ∧ (request.start it).it.threshold =
      nextThreshold request.collects it.threshold (request.start it).it.arena.live := by
  cases request with
  | collect => exact ⟨Interpreter.bounded_collect it [], rfl⟩
  | run => exact (tallies_invoke (.refl it) _ _ _).bounded bounded
  | call name args =>
    have built : it.Tallied { it with heap := (buildAll it it.heap args).2 } := ⟨rfl, rfl, rfl, rfl⟩
    exact (tallies_invoke built _ _ _).bounded bounded
  | _ => exact ⟨bounded.tallied ⟨rfl, rfl, rfl, rfl⟩, rfl⟩

/-- The threshold that a count of scopes after the last collection leads to. -/
theorem nextThreshold_eq {collected : Bool} {last : Option Nat} {before live : Nat}
    (threshold : before = max Interpreter.leastThreshold (last.getD 0)) :
    nextThreshold collected before live =
      max Interpreter.leastThreshold ((if collected then some live else last).getD 0) := by
  unfold nextThreshold
  cases collected with
  | true => rfl
  | false => exact threshold

theorem since_bounded {last : Option Nat} (since : Since config streams last s) :
    s.it.Bounded ∧ s.it.threshold = max Interpreter.leastThreshold (last.getD 0) := by
  induction since with
  | new => exact ⟨⟨Nat.succ_pos _, Nat.le_refl _, Nat.succ_le_succ (Nat.zero_le _)⟩, rfl⟩
  | step before ih =>
    obtain ⟨bounded, threshold⟩ := ih
    obtain ⟨after, changed⟩ := step_bounded bounded
    exact ⟨after, changed.trans (nextThreshold_eq threshold)⟩
  | @turn _ s result before ended slot request ih =>
    obtain ⟨bounded, threshold⟩ := ih
    have settled := tallied_settle s.it slot result
    obtain ⟨after, changed⟩ := start_bounded (bounded.tallied settled) request
    exact ⟨after, changed.trans (nextThreshold_eq (settled.threshold.trans threshold))⟩

/-- At every moment the scopes in use are at most the threshold, those left behind and one for each
call in progress. A collection is never overdue, and the threshold is 256 or what was in use right
after the last collection. -/
theorem garbage_bounded (reached : Reached config streams s) :
    s.it.retained < s.it.threshold ∧ 256 ≤ s.it.threshold ∧
    s.it.liveScopes ≤ s.it.threshold + s.it.retained + s.it.callDepth ∧
    s.it.liveScopes < 2 * s.it.threshold + s.it.callDepth ∧
    (∃ last, Since config streams last s) ∧
    ∀ last, Since config streams last s → s.it.threshold = max 256 (last.getD 0) := by
  obtain ⟨last, since⟩ := reached_since reached
  obtain ⟨⟨below, least, live⟩, _⟩ := since_bounded since
  refine ⟨below, least, live, ?_, ⟨last, since⟩, fun last since => (since_bounded since).2⟩
  unfold Interpreter.liveScopes Interpreter.callDepth
  omega

/-- The main function of `counter` leaves its scope behind, and the host collects while it keeps the
function that was made there. -/
theorem garbage_bounded_counter :
    ∃ before after, Reached ⟨8, 7⟩ {} before ∧ before.it.retained = 1 ∧ before.it.liveScopes = 2 ∧
      before.it.liveScopes ≤ before.it.threshold + before.it.retained + before.it.callDepth ∧
      Reached ⟨8, 7⟩ {} after ∧ after.it.retained = 0 ∧
      ∀ last, Since ⟨8, 7⟩ {} last after → after.it.threshold = max 256 (last.getD 0) := by
  have loading : Reached ⟨8, 7⟩ {} ((Request.load counter).start (.new ⟨8, 7⟩ {})) :=
    .turn .new rfl none (.load counter)
  have running := Reached.turn loading.step.step.step rfl none .run
  have ended := running.step.step.step.step.step.step
  have collected := Reached.turn ended rfl (some 0) .collect
  obtain ⟨_, _, bound, _⟩ := garbage_bounded ended
  obtain ⟨_, _, _, _, _, threshold⟩ := garbage_bounded collected
  exact ⟨_, _, ended, rfl, rfl, bound, collected, rfl, threshold⟩

end Host

end RetroScript

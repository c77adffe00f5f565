import RetroScript.Proofs.Lockstep

/-!
# The limit on the depth of calls

Under a higher limit a machine takes the same steps, up to a call that finds the stack too deep for
the lower one. So a limit cuts a run short and does nothing else to it: `execute_deeper`.
-/

namespace RetroScript

/-! ### What has been written stays -/

/-- The second sink has what the first one has, and perhaps more behind it. -/
def Sink.Grows (s s' : Sink) : Prop := ∃ more, s'.bytes = s.bytes ++ more

theorem Sink.Grows.refl (s : Sink) : s.Grows s := ⟨.empty, by rw [ByteArray.append_empty]⟩

theorem Sink.Grows.trans {s s' last : Sink} (first : s.Grows s') (second : s'.Grows last) :
    s.Grows last := by
  obtain ⟨front, same⟩ := first
  obtain ⟨back, same'⟩ := second
  exact ⟨front ++ back, by rw [same', same, ByteArray.append_assoc]⟩

theorem Sink.grows_write (s : Sink) (text : String) : s.Grows (s.write text).2 := by
  unfold write
  dsimp only
  repeat' split
  all_goals exact ⟨_, rfl⟩

/-- The limit is the same, and both streams have what they had. -/
structure Interpreter.Grows (it it' : Interpreter) : Prop where
  limit : it'.limit = it.limit
  out : it.out.Grows it'.out
  diag : it.diag.Grows it'.diag

theorem Interpreter.Grows.refl (it : Interpreter) : it.Grows it := ⟨rfl, .refl _, .refl _⟩

theorem Interpreter.Grows.trans {it it' last : Interpreter} (first : it.Grows it')
    (second : it'.Grows last) : it.Grows last :=
  ⟨second.limit.trans first.limit, first.out.trans second.out, first.diag.trans second.diag⟩

/-- The same interpreter with another limit. -/
def Interpreter.withLimit (it : Interpreter) (limit : Nat) : Interpreter := { it with limit }

namespace Builtin

variable (it : Interpreter)

theorem grows_write (b : Builtin) (text : String) : it.Grows (b.write it text).2 := by
  unfold write
  dsimp only
  split <;> exact ⟨rfl, it.out.grows_write text, .refl _⟩

theorem grows_dump (message : String) : it.Grows (it.dump message).2 :=
  ⟨rfl, .refl _, it.diag.grows_write _⟩

theorem grows_readLine (b : Builtin) (prompt : String) : it.Grows (b.readLine it prompt).2 := by
  have written := grows_write it b prompt
  unfold readLine
  split
  · next same => rwa [same] at written
  · next same =>
    rw [same] at written
    dsimp only
    split <;> exact ⟨written.limit, written.out, written.diag⟩

theorem grows_check (l r : Value) (message : String) : it.Grows (check it l r message).2 := by
  unfold check
  split
  · exact .refl it
  · exact grows_dump it _

theorem grows_draw (b : Builtin) (numbers : List Int) : it.Grows (b.draw it numbers).2 := by
  unfold draw
  dsimp only
  repeat' split
  all_goals exact ⟨rfl, .refl _, .refl _⟩

theorem grows_lift (b : Builtin) (r : Except BuiltinFault Value) : it.Grows (b.lift it r).2 := by
  unfold lift
  split <;> exact .refl it

theorem grows_act (b : Builtin) (args : List Value) : it.Grows (b.act it args).2 := by
  unfold act
  split
  case h_1 => exact grows_write it _ _
  case h_2 => exact grows_readLine it _ _
  case h_6 | h_7 | h_8 => exact grows_lift it _ _
  case h_12 v =>
    have dumped := grows_dump it (v.text it.heap)
    split <;> next same => rwa [same] at dumped
  case h_13 => exact grows_check it _ _ _
  case h_14 =>
    split
    · exact grows_check it _ _ _
    · exact .refl it
  case h_17 =>
    split
    · exact grows_draw it _ _
    · exact .refl it
  all_goals exact ⟨rfl, .refl _, .refl _⟩

theorem grows_call (b : Builtin) (args : List Value) : it.Grows (b.call it args).2 := by
  unfold call
  dsimp only
  split
  · exact .refl it
  · exact grows_act it _ _

/-! ### Builtins do not see the limit -/

variable (limit : Nat)

theorem write_withLimit (b : Builtin) (text : String) :
    b.write (it.withLimit limit) text = (b.write it text).map id (·.withLimit limit) := by
  unfold write
  dsimp only [Interpreter.withLimit]
  split <;> rfl

theorem dump_withLimit (message : String) :
    (it.withLimit limit).dump message = (it.dump message).map id (·.withLimit limit) := rfl

theorem readLine_withLimit (b : Builtin) (prompt : String) :
    b.readLine (it.withLimit limit) prompt = (b.readLine it prompt).map id (·.withLimit limit) := by
  unfold readLine
  rw [write_withLimit]
  rcases b.write it prompt with ⟨_ | _, it'⟩
  · rfl
  · dsimp only [Prod.map, id, Interpreter.withLimit]
    split <;> rfl

theorem check_withLimit (l r : Value) (message : String) :
    check (it.withLimit limit) l r message = (check it l r message).map id (·.withLimit limit) := by
  have same : (it.withLimit limit).heap = it.heap := rfl
  unfold check
  rw [same]
  by_cases equal : l.equal it.heap r = true
  · rw [if_pos equal, if_pos equal]
    rfl
  · rw [if_neg equal, if_neg equal]
    rfl

theorem draw_withLimit (b : Builtin) (numbers : List Int) :
    b.draw (it.withLimit limit) numbers = (b.draw it numbers).map id (·.withLimit limit) := by
  unfold draw
  dsimp only
  split
  · split <;> rfl
  all_goals rfl

theorem lift_withLimit (b : Builtin) (r : Except BuiltinFault Value) :
    b.lift (it.withLimit limit) r = (b.lift it r).map id (·.withLimit limit) := by
  cases r <;> rfl

theorem act_withLimit (b : Builtin) (args : List Value) :
    b.act (it.withLimit limit) args = (b.act it args).map id (·.withLimit limit) := by
  unfold act
  split
  case h_1 => exact write_withLimit it limit _ _
  case h_2 => exact readLine_withLimit it limit _ _
  case h_6 | h_7 | h_8 => exact lift_withLimit it limit _ _
  case h_12 v =>
    have heap : (it.withLimit limit).heap = it.heap := rfl
    rw [heap, dump_withLimit]
    rcases it.dump (v.text it.heap) with ⟨_ | _, it'⟩ <;> rfl
  case h_13 => exact check_withLimit it limit _ _ _
  case h_14 =>
    split
    · exact check_withLimit it limit _ _ _
    · rfl
  case h_17 =>
    split
    · exact draw_withLimit it limit _ _
    · rfl
  all_goals rfl

theorem call_withLimit (b : Builtin) (args : List Value) :
    b.call (it.withLimit limit) args = (b.call it args).map id (·.withLimit limit) := by
  unfold call
  dsimp only
  split
  · rfl
  · exact act_withLimit it limit b args

end Builtin

namespace Machine

open Syntax (Expr Command Item)

def State.withLimit (s : State) (limit : Nat) : State := { s with it := s.it.withLimit limit }

/-- What a step from `it` comes to under its own limit (`s`) and under a higher one (`s'`): the same,
unless the step is a call that finds the stack too deep. -/
inductive Tracks (limit : Nat) (it : Interpreter) : State → State → Prop where
  | same {s : State} (grows : it.Grows s.it) : Tracks limit it s (s.withLimit limit)
  | cut {s s' : State} (depth : Nat) (overflow : s.control = .stop (.stackOverflow depth))
      (out : s.it.out = it.out) (diag : s.it.diag = it.diag)
      (grows : (it.withLimit limit).Grows s'.it) :
      Tracks limit it s s'

section

variable {it : Interpreter} {limit : Nat}

theorem tracks_quiet (control : Control) (work : List Pending) :
    Tracks limit it ⟨it, control, work⟩ ⟨it.withLimit limit, control, work⟩ :=
  .same (s := ⟨it, control, work⟩) (.refl it)

theorem tracks_giveOrFail (pos : Position) (r : Except Fault Value) (work : List Pending) :
    Tracks limit it (giveOrFail it pos r work) (giveOrFail (it.withLimit limit) pos r work) := by
  cases r <;> exact tracks_quiet _ _

/-- Only the limit and the streams of the interpreter before a step matter. -/
theorem Tracks.apart {it' : Interpreter} {s s' : State} (tracks : Tracks limit it' s s')
    (same : it'.limit = it.limit) (out : it'.out = it.out) (diag : it'.diag = it.diag) :
    Tracks limit it s s' := by
  cases tracks with
  | same grows => exact .same ⟨grows.limit.trans same, out ▸ grows.out, diag ▸ grows.diag⟩
  | cut depth overflow out' diag' grows =>
    refine .cut depth overflow (out'.trans out) (diag'.trans diag) ⟨grows.limit, ?_, ?_⟩
    · exact out ▸ grows.out
    · exact diag ▸ grows.diag

theorem tracks_changeOrFail (pos : Position) (r : Except Fault Heap.Place)
    (change : Heap → Heap.Place → Heap) (work : List Pending) :
    Tracks limit it (changeOrFail it pos r change work)
      (changeOrFail (it.withLimit limit) pos r change work) := by
  cases r with
  | ok place => exact .same (s := ⟨_, _, work⟩) ⟨rfl, .refl _, .refl _⟩
  | error fault => exact tracks_quiet _ _

theorem tracks_gatherEntries (done : Dict Value) (rest : List (String × Expr)) (work : List Pending) :
    Tracks limit it (gatherEntries it done rest work)
      (gatherEntries (it.withLimit limit) done rest work) := by
  cases rest with
  | nil => exact .same (s := ⟨_, _, work⟩) ⟨rfl, .refl _, .refl _⟩
  | cons e es => exact tracks_quiet _ _

theorem tracks_reachInto (pos : Position) (name : String) (key : Expr) (rest : List Expr)
    (touch : Touch) (work : List Pending) :
    Tracks limit it (reachInto it pos name key rest touch work)
      (reachInto (it.withLimit limit) pos name key rest touch work) := by
  have found : (it.withLimit limit).lookup name = it.lookup name := rfl
  unfold reachInto
  rw [found]
  split <;> exact tracks_quiet _ _

theorem tracks_reachOn (pos : Position) (container key : Value) (rest : List Expr) (touch : Touch)
    (work : List Pending) :
    Tracks limit it (reachOn it pos container key rest touch work)
      (reachOn (it.withLimit limit) pos container key rest touch work) := by
  have found : (it.withLimit limit).heap = it.heap := rfl
  unfold reachOn
  rw [found]
  split
  · split <;> exact tracks_quiet _ _
  · split <;> exact tracks_changeOrFail _ _ _ _

theorem tracks_assignTo (pos : Position) (name : String) (indexes : List Expr) (v : Value)
    (work : List Pending) :
    Tracks limit it (assignTo it pos name indexes v work)
      (assignTo (it.withLimit limit) pos name indexes v work) := by
  have consts : (it.withLimit limit).consts = it.consts := rfl
  unfold assignTo
  rw [consts]
  split
  · exact tracks_reachInto _ _ _ _ _ _
  · split
    · exact tracks_quiet _ _
    · exact .same (s := ⟨_, _, work⟩) ⟨rfl, .refl _, .refl _⟩

theorem defineItems_withLimit (it : Interpreter) (limit : Nat) (items : List Item) :
    defineItems (it.withLimit limit) items = (defineItems it items).withLimit limit ∧
      it.Grows (defineItems it items) := by
  fun_induction defineItems it items with
  | case1 it => exact ⟨rfl, .refl it⟩
  | case2 it pos name params body rest ih => exact ⟨ih.1, ih.2.limit, ih.2.out, ih.2.diag⟩
  | case3 it item rest other ih =>
    rw [defineItems]
    · exact ih
    · exact other

theorem tracks_finishLoad (items : List Item) (work : List Pending) :
    Tracks limit it (finishLoad it items work) (finishLoad (it.withLimit limit) items work) := by
  obtain ⟨defined, grows⟩ := defineItems_withLimit it limit items
  have main : mainFault? ((defineItems it items).withLimit limit) = mainFault? (defineItems it items) := rfl
  unfold finishLoad
  rw [defined]
  dsimp only
  rw [main]
  split
  · exact .same (s := ⟨defineItems it items, _, work⟩) grows
  · exact .same (s := ⟨defineItems it items, _, work⟩) grows

theorem tracks_exit (callee : Nat) (scope : ScopeId) (result : Option Value) (control : Control)
    (work : List Pending) :
    Tracks limit it ⟨exit it callee scope result work, control, work⟩
      ⟨exit (it.withLimit limit) callee scope result work, control, work⟩ := by
  have left : (it.withLimit limit).leave scope = (it.leave scope).withLimit limit := rfl
  have due : ((it.leave scope).withLimit limit).isDue = (it.leave scope).isDue := rfl
  unfold exit
  rw [left]
  dsimp only
  rw [due]
  split <;> exact .same (s := ⟨_, control, work⟩) ⟨rfl, .refl _, .refl _⟩

theorem grows_enter (it : Interpreter) (pos : Position) (ref : Nat) (args : List Value)
    (work : List Pending) : it.Grows (enter it pos ref args work).it := by
  unfold enter
  dsimp only
  repeat' split
  all_goals exact ⟨rfl, .refl _, .refl _⟩

/-! The four ways a call can start. -/

variable (pos : Position) {ref : Nat} {args : List Value} (work : List Pending)

theorem enter_poisoned (poisoned : it.poisoned = true) :
    enter it pos ref args work = ⟨it, .stop .poisoned, work⟩ := by
  simp only [enter, poisoned, if_true]

theorem enter_mismatch (usable : it.poisoned = false)
    (arity : args.length ≠ (it.heap.closure ref).params.length) :
    enter it pos ref args work = ⟨it, .fail pos (.arityMismatch (it.heap.closure ref).name
      (it.heap.closure ref).params.length args.length), work⟩ := by
  simp [enter, usable, arity]

theorem enter_deep (usable : it.poisoned = false)
    (arity : args.length = (it.heap.closure ref).params.length) (deep : it.limit < it.frames.size) :
    enter it pos ref args work =
      ⟨{ it with poisoned := true }, .stop (.stackOverflow it.limit), work⟩ := by
  simp [enter, usable, arity, deep]

theorem enter_room (usable : it.poisoned = false)
    (arity : args.length = (it.heap.closure ref).params.length) (room : it.frames.size ≤ it.limit) :
    enter it pos ref args work =
      ⟨(it.enter (it.heap.closure ref) args pos).2, .exec (it.heap.closure ref).body,
        .call ref (it.enter (it.heap.closure ref) args pos).1 :: work⟩ := by
  simp [enter, usable, arity, Nat.not_lt.mpr room]

end

section

variable {it : Interpreter} {limit : Nat} (higher : it.limit ≤ limit)

include higher

/-- The one place where the limit is looked at. -/
theorem tracks_enter (pos : Position) (ref : Nat) (args : List Value) (work : List Pending) :
    Tracks limit it (enter it pos ref args work) (enter (it.withLimit limit) pos ref args work) := by
  by_cases poisoned : it.poisoned = true
  · rw [enter_poisoned pos work poisoned, enter_poisoned pos work (by exact poisoned)]
    exact tracks_quiet _ _
  have usable : it.poisoned = false := by simpa using poisoned
  by_cases arity : args.length = (it.heap.closure ref).params.length
  · by_cases deep : it.limit < it.frames.size
    · rw [enter_deep pos work usable arity deep]
      exact .cut _ rfl rfl rfl (grows_enter (it.withLimit limit) pos ref args work)
    · have room : it.frames.size ≤ it.limit := by omega
      have room' : (it.withLimit limit).frames.size ≤ (it.withLimit limit).limit :=
        Nat.le_trans room higher
      rw [enter_room pos work usable arity room, enter_room pos work (by exact usable) (by exact arity) room']
      exact .same (s := ⟨_, _, _⟩) ⟨rfl, .refl _, .refl _⟩
  · rw [enter_mismatch pos work usable arity, enter_mismatch pos work (by exact usable) (by exact arity)]
    exact tracks_quiet _ _

theorem tracks_invoke (pos : Position) (name : String) (args : List Value) (work : List Pending) :
    Tracks limit it (invoke it pos name args work) (invoke (it.withLimit limit) pos name args work) := by
  unfold invoke
  cases Builtin.ofName? name with
  | some b =>
    have grows := Builtin.grows_call it b args
    dsimp only
    rw [Builtin.call_withLimit]
    generalize b.call it args = answer at grows ⊢
    rcases answer with ⟨_ | _, it'⟩
    · exact .same (s := ⟨it', _, work⟩) grows
    · exact .same (s := ⟨it', _, work⟩) grows
  | none =>
    have found : (it.withLimit limit).arena.findClosure (it.withLimit limit).active name =
        it.arena.findClosure it.active name := rfl
    dsimp only
    rw [found]
    cases it.arena.findClosure it.active name with
    | some ref => exact tracks_enter higher pos ref args work
    | none => exact tracks_quiet _ _

theorem tracks_complete (values : List Value) (work : List Pending) (use : Use) :
    Tracks limit it (complete it values work use) (complete (it.withLimit limit) values work use) := by
  unfold complete
  split
  · exact .same (s := ⟨_, _, work⟩) ⟨rfl, .refl _, .refl _⟩
  · exact tracks_invoke higher _ _ _ _
  · exact tracks_enter higher _ _ _ _
  · exact tracks_quiet _ _

theorem tracks_gather (done : List Value) (rest : List Expr) (use : Use) (work : List Pending) :
    Tracks limit it (gather it done rest use work) (gather (it.withLimit limit) done rest use work) := by
  cases rest with
  | nil => exact tracks_complete higher _ _ _
  | cons e es => exact tracks_quiet _ _

theorem tracks_stepEval (work : List Pending) (e : Expr) :
    Tracks limit it (stepEval it work e) (stepEval (it.withLimit limit) work e) := by
  cases e with
  | array pos items => exact tracks_gather higher _ _ _ _
  | map pos entries => exact tracks_gatherEntries _ _ _
  | «variable» pos name => exact tracks_giveOrFail _ _ _
  | lambda pos params body => exact .same (s := ⟨_, _, work⟩) ⟨rfl, .refl _, .refl _⟩
  | call pos name args more => exact tracks_gather higher _ _ _ _
  | _ => exact tracks_quiet _ _

theorem tracks_stepCommand (rest : List Command) (work : List Pending) (c : Command) :
    Tracks limit it (stepCommand it rest work c) (stepCommand (it.withLimit limit) rest work c) := by
  cases c with
  | delete pos name indexes =>
    cases indexes with
    | nil => exact tracks_quiet _ _
    | cons key keys => exact tracks_reachInto _ _ _ _ _ _
  | define pos name params body => exact .same (s := ⟨_, _, work⟩) ⟨rfl, .refl _, .refl _⟩
  | call pos name args more => exact tracks_gather higher _ _ _ _
  | _ => exact tracks_quiet _ _

theorem tracks_stepGive (v : Value) (work : List Pending) (pending : Pending) :
    Tracks limit it (stepGive it v work pending) (stepGive (it.withLimit limit) v work pending) := by
  cases pending with
  | operate pos op left => exact tracks_giveOrFail _ _ _
  | select pos base => exact tracks_giveOrFail _ _ _
  | values done rest use => exact tracks_gather higher _ _ _ _
  | entries done name rest => exact tracks_gatherEntries _ _ _
  | groups pos more =>
    cases more with
    | nil => exact tracks_quiet _ _
    | cons args more => exact tracks_gather higher _ _ _ _
  | assign pos name indexes => exact tracks_assignTo _ _ _ _ _
  | reach pos container rest touch => exact tracks_reachOn _ _ _ _ _ _
  | test condition body =>
    simp only [stepGive]
    split <;> exact tracks_quiet _ _
  | call callee scope => exact tracks_exit _ _ _ _ _
  | constant name => exact .same (s := ⟨_, _, work⟩) ⟨rfl, .refl _, .refl _⟩
  | functions items => exact tracks_finishLoad _ _
  | _ => exact tracks_quiet _ _

theorem tracks_stepFinish (result : Option Value) (work : List Pending) (pending : Pending) :
    Tracks limit it (stepFinish it result work pending)
      (stepFinish (it.withLimit limit) result work pending) := by
  have given := tracks_stepGive higher (result.getD .null) work pending
  cases pending with
  | commands rest => cases result <;> exact tracks_quiet _ _
  | again condition body => cases result <;> exact tracks_quiet _ _
  | call callee scope => exact tracks_exit _ _ _ _ _
  | _ => exact given

end

theorem tracks_stepLoad {it : Interpreter} {limit : Nat} (work : List Pending) (items : List Item) :
    Tracks limit it (stepLoad it work items) (stepLoad (it.withLimit limit) work items) := by
  cases items with
  | nil => exact tracks_quiet _ _
  | cons item rest => cases item <;> exact .same (s := ⟨_, _, _⟩) ⟨rfl, .refl _, .refl _⟩

theorem tracks_step (s : State) {limit : Nat} (higher : s.it.limit ≤ limit) :
    Tracks limit s.it (step s) (step (s.withLimit limit)) := by
  obtain ⟨it, control, work⟩ := s
  cases control with
  | load items => exact tracks_stepLoad _ _
  | eval e => exact tracks_stepEval higher _ _
  | exec commands =>
    cases commands with
    | nil => exact tracks_quiet _ _
    | cons c cs =>
      have moved : Tracks limit { it with pos := c.pos } (stepCommand { it with pos := c.pos } cs work c)
          (stepCommand (Interpreter.withLimit { it with pos := c.pos } limit) cs work c) :=
        tracks_stepCommand (by exact higher) cs work c
      exact moved.apart rfl rfl rfl
  | give v =>
    cases work with
    | nil => exact tracks_quiet _ _
    | cons pending work => exact tracks_stepGive higher _ _ _
  | finish result =>
    cases work with
    | nil => exact tracks_quiet _ _
    | cons pending work => exact tracks_stepFinish higher _ _ _
  | fail pos fault =>
    cases work with
    | nil => exact tracks_quiet _ _
    | cons pending work =>
      cases pending with
      | call callee scope => exact tracks_exit _ _ _ _ _
      | _ => exact tracks_quiet _ _
  | stop fatal => exact tracks_quiet _ _

theorem Tracks.grows {it : Interpreter} {limit : Nat} {s s' : State} (tracks : Tracks limit it s s') :
    (it.withLimit limit).Grows s'.it := by
  cases tracks with
  | same grows => exact ⟨rfl, grows.out, grows.diag⟩
  | cut _ _ _ _ grows => exact grows

theorem grows_step (s : State) : s.it.Grows (step s).it := (tracks_step s (Nat.le_refl _)).grows

/-! ### Runs -/

theorem grows_run {n : Nat} {s : State} {o : Interpreter.Outcome} (ran : run n s = some o) :
    s.it.Grows o.2 := by
  have preserved : ∀ t : State, s.it.Grows t.it → s.it.Grows (step t).it :=
    fun t grows => grows.trans (grows_step t)
  obtain ⟨last, grows, _, same⟩ := run_ends preserved ran (.refl s.it)
  exact same ▸ grows

end Machine

/-- A run has gone deeper than its limit allows. -/
def Overflows : Except Error Value → Prop
  | .error (.fatal (.stackOverflow _)) => True
  | _ => False

instance : DecidablePred Overflows
  | .error (.fatal (.stackOverflow _)) => isTrue trivial
  | .error (.fatal .poisoned) | .error (.lex _) | .error (.parse _) | .error (.eval _ _) | .ok _ =>
    isFalse id

namespace Machine

/-- What has ended in `o` within `n` steps ends in the same way under a higher limit; or it went too
deep, and then it has written no more than the start of what is written under the higher limit. -/
def Cuts (limit n : Nat) (o : Interpreter.Outcome) (deeper : Nat → Option Interpreter.Outcome) :
    Prop :=
  deeper n = some (o.1, o.2.withLimit limit) ∧
      (∀ m o', deeper m = some o' → o' = (o.1, o.2.withLimit limit)) ∨
    Overflows o.1 ∧ ∀ m o', deeper m = some o' → (o.2.withLimit limit).Grows o'.2

theorem run_unique {n m : Nat} {s : State} {o o' : Interpreter.Outcome} (first : run n s = some o)
    (second : run m s = some o') : o' = o := by
  rcases Nat.le_total n m with le | le
  · exact Option.some.inj (second.symm.trans (run_mono le first))
  · exact Option.some.inj ((run_mono le second).symm.trans first)

theorem run_deeper {limit n : Nat} {it : Interpreter} {s s' : State} {o : Interpreter.Outcome}
    (tracks : Tracks limit it s s') (higher : it.limit ≤ limit) (ran : run n s = some o) :
    Cuts limit n o (run · s') := by
  induction n generalizing it s s' with
  | zero => cases ran
  | succ n ih =>
    cases tracks with
    | same grows =>
      have low : s.it.limit ≤ limit := by rw [grows.limit]; exact higher
      have outcomes : (s.withLimit limit).outcome? = s.outcome? := rfl
      cases ended : s.outcome? with
      | some result =>
        rw [run, ended] at ran
        cases ran
        have same : run (n + 1) (s.withLimit limit) = some (result, s.it.withLimit limit) := by
          rw [run, outcomes, ended]
          rfl
        exact Or.inl ⟨same, fun m o' ran' => run_unique same ran'⟩
      | none =>
        rw [run_of_running ended] at ran
        have later : ∀ m, run (m + 1) (s.withLimit limit) = run m (step (s.withLimit limit)) :=
          run_of_running (outcomes.trans ended)
        rcases ih (tracks_step s low) low ran with ⟨same, _⟩ | ⟨overflow, grown⟩
        · have same' := (later n).trans same
          exact Or.inl ⟨same', fun m o' ran' => run_unique same' ran'⟩
        · refine Or.inr ⟨overflow, fun m o' ran' => ?_⟩
          cases m with
          | zero => cases ran'
          | succ m => exact grown m o' ((later m).symm.trans ran')
    | cut depth overflow out diag grows =>
      have stopped : s.outcome? = some (.error (.fatal (.stackOverflow depth))) := by
        rw [State.outcome?, overflow]
      rw [run, stopped] at ran
      cases ran
      refine Or.inr ⟨trivial, fun m o' ran' => ?_⟩
      obtain ⟨same, outs, diags⟩ := grows.trans (grows_run ran')
      refine ⟨same, ?_, ?_⟩
      · change s.it.out.Grows o'.2.out
        rw [out]
        exact outs
      · change s.it.diag.Grows o'.2.diag
        rw [diag]
        exact diags

end Machine

namespace Interpreter

open Machine (Cuts)

variable {limit n : Nat} {it : Interpreter} {o : Outcome} (higher : it.limit ≤ limit)

include higher

theorem load_deeper (program : Syntax.Program) (ran : it.load n program = some o) :
    Cuts limit n o ((it.withLimit limit).load · program) :=
  Machine.run_deeper (Machine.tracks_quiet _ _) higher ran

theorem callFunction_deeper (name : String) (args : List Value)
    (ran : it.callFunction n name args = some o) :
    Cuts limit n o ((it.withLimit limit).callFunction · name args) :=
  Machine.run_deeper (Machine.tracks_invoke higher it.pos name args []) higher ran

omit higher in
theorem grows_callFunction (it : Interpreter) (name : String) (args : List Value)
    (ran : it.callFunction n name args = some o) : it.Grows o.2 :=
  (Machine.tracks_invoke (Nat.le_refl it.limit) it.pos name args []).grows.trans
    (Machine.grows_run ran)

omit higher in
theorem runProgram_cases {program : Syntax.Program} :
    it.runProgram n program = some o ↔
      (∃ v mid, it.load n program = some (.ok v, mid) ∧ mid.runMain n = some o) ∨
      ∃ e mid, it.load n program = some (.error e, mid) ∧ o = (.error e, mid) := by
  unfold runProgram
  rcases it.load n program with _ | ⟨_ | _, mid⟩
  · simp
  · simp [eq_comm]
  · simp

theorem runProgram_deeper (program : Syntax.Program) (ran : it.runProgram n program = some o) :
    Cuts limit n o ((it.withLimit limit).runProgram · program) := by
  rcases runProgram_cases.mp ran with ⟨v, mid, loaded, main⟩ | ⟨e, mid, loaded, rfl⟩
  · rcases load_deeper higher program loaded with ⟨loaded', only⟩ | ⟨overflow, _⟩
    · -- Loading ends the same way, so it is the main function that may go too deep.
      have low : mid.limit ≤ limit := by
        rw [(Machine.grows_run loaded).limit]
        exact higher
      have others : ∀ m o', (it.withLimit limit).runProgram m program = some o' →
          (mid.withLimit limit).runMain m = some o' := by
        intro m o' ran'
        rcases runProgram_cases.mp ran' with ⟨w, mid', loaded'', main'⟩ | ⟨e, mid', loaded'', rfl⟩
        · obtain ⟨_, rfl⟩ := Prod.mk.inj (only m _ loaded'')
          exact main'
        · cases (Prod.mk.inj (only m _ loaded'')).1
      rcases callFunction_deeper low "main" [] main with ⟨main', unique⟩ | ⟨overflow, grown⟩
      · refine Or.inl ⟨runProgram_cases.mpr (.inl ⟨v, _, loaded', main'⟩), ?_⟩
        exact fun m o' ran' => unique m o' (others m o' ran')
      · exact Or.inr ⟨overflow, fun m o' ran' => grown m o' (others m o' ran')⟩
    · cases overflow
  · rcases load_deeper higher program loaded with ⟨loaded', only⟩ | ⟨overflow, grown⟩
    · refine Or.inl ⟨runProgram_cases.mpr (.inr ⟨e, _, loaded', rfl⟩), fun m o' ran' => ?_⟩
      rcases runProgram_cases.mp ran' with ⟨w, mid', loaded'', _⟩ | ⟨e', mid', loaded'', rfl⟩
      · cases (Prod.mk.inj (only m _ loaded'')).1
      · exact only m _ loaded''
    · refine Or.inr ⟨overflow, fun m o' ran' => ?_⟩
      rcases runProgram_cases.mp ran' with ⟨w, mid', loaded'', main'⟩ | ⟨e', mid', loaded'', rfl⟩
      · exact (grown m _ loaded'').trans (grows_callFunction mid' "main" [] main')
      · exact grown m _ loaded''

end Interpreter

theorem execute_cuts (source : String) (seed : UInt64) (streams : Streams) {low high n : Nat}
    (le : low ≤ high) {o : Interpreter.Outcome}
    (ended : execute n source ⟨low, seed⟩ streams = some o) :
    Machine.Cuts high n o (execute · source ⟨high, seed⟩ streams) := by
  unfold execute Interpreter.runSource at ended ⊢
  cases parsed : Syntax.parseSource source with
  | ok program =>
    simp only [parsed] at ended ⊢
    exact Interpreter.runProgram_deeper (by exact le) program ended
  | error e =>
    simp only [parsed] at ended ⊢
    cases ended
    exact Or.inl ⟨rfl, fun m o' ended' => (Option.some.inj ended').symm⟩

/-- A limit on the depth of calls cuts runs short and does nothing else. -/
theorem execute_deeper (source : String) (seed : UInt64) (streams : Streams) {low high n : Nat}
    (le : low ≤ high) {o : Interpreter.Outcome}
    (ended : execute n source ⟨low, seed⟩ streams = some o) :
    (¬ Overflows o.1 →
      execute n source ⟨high, seed⟩ streams = some (o.1, { o.2 with limit := high })) ∧
    ∀ m o', execute m source ⟨high, seed⟩ streams = some o' →
      (¬ Overflows o.1 → o' = (o.1, { o.2 with limit := high })) ∧
      (Overflows o.1 → o.2.out.Grows o'.2.out ∧ o.2.diag.Grows o'.2.diag) := by
  rcases execute_cuts source seed streams le ended with ⟨same, only⟩ | ⟨overflow, grown⟩
  · refine ⟨fun _ => same, fun m o' ended' => ⟨fun _ => only m o' ended', fun _ => ?_⟩⟩
    rw [only m o' ended']
    exact ⟨.refl _, .refl _⟩
  · refine ⟨fun shallow => absurd overflow shallow, fun m o' ended' => ?_⟩
    exact ⟨fun shallow => absurd overflow shallow, fun _ => ⟨(grown m o' ended').out, (grown m o' ended').diag⟩⟩

/-- Its second call is one too many for a limit of zero, and not for a limit of one. -/
def greeter : String := "def main() print(\"a\"); f(); end def f() print(\"b\"); end"

theorem execute_deeper_greeter : ∃ o o', execute 40 greeter ⟨0, 7⟩ {} = some o ∧ Overflows o.1 ∧
    execute 40 greeter ⟨1, 7⟩ {} = some o' ∧ ¬ Overflows o'.1 ∧
    o.2.out.bytes = "a\n".toUTF8 ∧ o'.2.out.bytes = "a\nb\n".toUTF8 ∧
    o.2.out.Grows o'.2.out ∧ o.2.diag.Grows o'.2.diag := by
  have low : (execute 40 greeter ⟨0, 7⟩ {}).any
      (fun o => Overflows o.1 ∧ o.2.out.bytes = "a\n".toUTF8) = true := by decide +kernel
  have high : (execute 40 greeter ⟨1, 7⟩ {}).any
      (fun o => ¬ Overflows o.1 ∧ o.2.out.bytes = "a\nb\n".toUTF8) = true := by decide +kernel
  obtain ⟨o, ended, ends⟩ := (Option.any_eq_true _ _).mp low
  obtain ⟨o', ended', ends'⟩ := (Option.any_eq_true _ _).mp high
  obtain ⟨overflow, written⟩ := of_decide_eq_true ends
  obtain ⟨whole, written'⟩ := of_decide_eq_true ends'
  have cut := ((execute_deeper greeter 7 {} (Nat.zero_le 1) ended).2 40 o' ended').2 overflow
  exact ⟨o, o', ended, overflow, ended', whole, written, written', cut⟩

end RetroScript

import RetroScript.Proofs.FullSink
import RetroScript.Proofs.VideoMemory

/-!
# What builtins do to devices

A call of a builtin appends to the two outputs and may change the picture; only `input` reads, and only
`random` draws numbers: `call_plain`, `call_input`, `call_random`. So the history of a run, which tells
what was called, says what a run owes to its devices. One that never called `random` is the same with any
seed (`execute_reseeded`), and the last frame is the one that the last `updateVideo` made
(`execute_frame`).
-/

namespace RetroScript

open Video (Picture)

/-- Outputs without a limit. -/
structure Devices.Free (d : Devices) : Prop where
  out : d.out.limit = none
  diag : d.diag.limit = none

/-! ### Builtins -/

namespace Builtin

/-- A call that neither reads a line nor draws a number. -/
structure Plain (b : Builtin) (args : List Value) : Prop where
  silent : b = .input → args.length ≠ 1
  certain : b = .random → args ≠ []

/-- What a plain call does to devices with a given picture. -/
structure Effect where
  result : Except Fault Value
  it : Interpreter
  written : ByteArray := .empty
  reported : ByteArray := .empty
  video : Video.Memory

namespace Effect

/-- The devices after a call. -/
def on (e : Effect) (d : Devices) : Devices :=
  { d with
    out := ⟨d.out.bytes ++ e.written, none⟩
    diag := ⟨d.diag.bytes ++ e.reported, none⟩
    video := e.video }

def answer (e : Effect) (d : Devices) : Answer := (e.result, e.it.equip (e.on d))

end Effect

variable {it : Interpreter} {video : Video.Memory}

/-- A call with an effect that does not depend on what the devices hold, up to the picture. -/
def Steady (video : Video.Memory) (shown : Picture) (call : Devices → Answer) : Prop :=
  ∃ e : Effect, e.video.shown = shown ∧ ∀ d : Devices, d.Free → d.video = video → call d = e.answer d

theorem sink_append_empty {s : Sink} (free : s.limit = none) : (⟨s.bytes ++ .empty, none⟩ : Sink) = s := by
  obtain ⟨bytes, limit⟩ := s
  cases free
  rw [ByteArray.append_empty]

theorem steady_same (r : Except Fault Value) (it : Interpreter) :
    Steady video video.shown fun d => (r, it.equip d) := by
  refine ⟨⟨r, it, .empty, .empty, video⟩, rfl, fun d free same => ?_⟩
  rw [Effect.answer, Effect.on, sink_append_empty free.out, sink_append_empty free.diag, ← same]

/-- A change of the picture. -/
theorem steady_change (it : Interpreter) (change : Video.Memory → Video.Memory) :
    Steady video (change video).shown fun d => done { it.equip d with video := change (it.equip d).video } := by
  refine ⟨⟨.ok .null, it, .empty, .empty, change video⟩, rfl, fun d free same => ?_⟩
  rw [Effect.answer, Effect.on, sink_append_empty free.out, sink_append_empty free.diag, ← same]
  rfl

theorem steady_write (b : Builtin) (it : Interpreter) (text : String) :
    Steady video video.shown fun d => b.write (it.equip d) text := by
  refine ⟨⟨.ok .null, it, text.toUTF8, .empty, video⟩, rfl, fun d free same => ?_⟩
  have free' : (it.equip d).out.limit = none := free.out
  have written := Sink.write_free free' text
  beta_reduce
  rw [Builtin.write_free free', written, Effect.answer, Effect.on, sink_append_empty free.diag, ← same]
  rfl

theorem dump_equip (it : Interpreter) {d : Devices} (free : d.Free) (message : String) :
    (it.equip d).dump message =
      (true, it.equip { d with diag := ⟨d.diag.bytes ++ (it.report message).toUTF8, none⟩ }) := by
  have free' : (it.equip d).diag.limit = none := free.diag
  unfold Interpreter.dump
  rw [Sink.write_free free']
  rfl

/-- A report is not cut, so what comes after it does not depend on how much was reported before. -/
theorem steady_dump (it : Interpreter) (message : String) {call : Devices → Answer} {r : Except Fault Value}
    (used : ∀ d after, (it.equip d).dump message = (true, after) → call d = (r, after)) :
    Steady video video.shown call := by
  refine ⟨⟨r, it, .empty, (it.report message).toUTF8, video⟩, rfl, fun d free same => ?_⟩
  rw [used d _ (dump_equip it free message), Effect.answer, Effect.on, sink_append_empty free.out, ← same]

theorem steady_lift (b : Builtin) (it : Interpreter) (r : Except BuiltinFault Value) :
    Steady video video.shown fun d => b.lift (it.equip d) r := by
  cases r with
  | ok v => exact steady_same _ it
  | error f => exact steady_same _ it

theorem steady_check (it : Interpreter) (l r : Value) (message : String) :
    Steady video video.shown fun d => check (it.equip d) l r message := by
  have heap (d : Devices) : (it.equip d).heap = it.heap := rfl
  unfold check
  simp only [heap]
  by_cases equal : l.equal it.heap r
  · simp only [equal, if_true]
    exact steady_same _ it
  · simp only [equal]
    exact steady_dump it _ fun d after dumped => by rw [dumped]; rfl

theorem steady_draw (b : Builtin) (it : Interpreter) (numbers : List Int) :
    Steady video video.shown fun d => b.draw (it.equip d) numbers := by
  have drawn (change : Video.Memory → Video.Memory) (kept : (change video).shown = video.shown) :
      Steady video video.shown fun d => done { it.equip d with video := change (it.equip d).video } :=
    kept ▸ steady_change it change
  unfold draw
  dsimp only
  split
  · split
    · next mode _ => exact drawn (·.setMode mode) rfl
    · exact steady_same _ it
  · next x y c => exact drawn (·.setPixel ⟨x, y⟩ (.ofInt c)) (video.shown_setPixel _ _)
  · next x₁ y₁ x₂ y₂ c => exact drawn (·.drawLine ⟨x₁, y₁⟩ ⟨x₂, y₂⟩ (.ofInt c)) (video.paint_keeps _ _).2.1
  · next x y r c => exact drawn (·.drawCircle ⟨x, y⟩ r (.ofInt c)) (video.paint_keeps _ _).2.1
  · next x y r c => exact drawn (·.fillCircle ⟨x, y⟩ r (.ofInt c)) (video.paint_keeps _ _).2.1
  · exact steady_same _ it

/-- The picture that is shown after a call. -/
def shownAfter (b : Builtin) (args : List Value) (video : Video.Memory) : Picture :=
  if b = .updateVideo ∧ args = [] then video.update.shown else video.shown

theorem steady_act {b : Builtin} {args : List Value} (plain : b.Plain args) (it : Interpreter) :
    Steady video (b.shownAfter args video) fun d => b.act (it.equip d) args := by
  have heap (d : Devices) : (it.equip d).heap = it.heap := rfl
  unfold act
  simp only [heap]
  split
  case h_1 => exact steady_write _ it _
  case h_2 v => exact absurd rfl (plain.silent rfl)
  case h_6 | h_7 | h_8 => exact steady_lift _ it _
  case h_9 ref => exact steady_same _ { it with heap := (it.heap.newArray _).2 }
  case h_11 => exact absurd rfl (plain.certain rfl)
  case h_12 v => exact steady_dump it (v.text it.heap) fun d after dumped => by rw [dumped]; rfl
  case h_13 => exact steady_check it _ _ _
  case h_14 l r message =>
    cases stringArg 2 message with
    | ok message => exact steady_check it _ _ _
    | error f => exact steady_same _ it
  case h_15 => exact steady_change it (·.clear)
  case h_16 => exact steady_change it (·.update)
  case h_17 other =>
    have kept : b.shownAfter args video = video.shown := if_neg fun both => other both.1 both.2
    rw [kept]
    cases integerArgs 0 args with
    | ok numbers => exact steady_draw b it numbers
    | error f => exact steady_same _ it
  all_goals exact steady_same _ it

theorem call_plain {b : Builtin} {args : List Value} (plain : b.Plain args) (it : Interpreter)
    (video : Video.Memory) :
    ∃ e : Effect, e.video.shown = b.shownAfter args video ∧
      ∀ d : Devices, d.Free → d.video = video → b.call (it.equip d) args = e.answer d := by
  change Steady video (b.shownAfter args video) fun d => b.call (it.equip d) args
  unfold call
  dsimp only
  split
  · next wrong =>
    have kept : b.shownAfter args video = video.shown := by
      refine if_neg ?_
      rintro ⟨rfl, rfl⟩
      simp [arity] at wrong
    rw [kept]
    exact steady_same _ it
  · exact steady_act plain it

/-- What a line that was read comes to. -/
def lineAnswer (line : List UInt8) : Except Fault Value :=
  match lineText line with
  | .ok text => .ok (.string text)
  | .error f => .error (.builtin "input" (.stream f))

theorem call_input (it : Interpreter) {d : Devices} (free : d.Free) (v : Value) :
    input.call (it.equip d) [v] =
      (lineAnswer (splitLine d.input).1,
        it.equip { d with
          input := (splitLine d.input).2
          out := ⟨d.out.bytes ++ (v.text it.heap).toUTF8, none⟩ }) := by
  have free' : (it.equip d).out.limit = none := free.out
  have written := Sink.write_free free' (v.text it.heap)
  have acts : input.call (it.equip d) [v] = input.readLine (it.equip d) (v.text it.heap) := rfl
  rw [acts, readLine, Builtin.write_free free', written, lineAnswer]
  dsimp only [done]
  have line : splitLine (it.equip d).input = splitLine d.input := rfl
  rw [line]
  cases lineText (splitLine d.input).1 <;> rfl

theorem call_random (it : Interpreter) (d : Devices) :
    random.call (it.equip d) [] =
      (.ok (.number d.random.next.1), it.equip { d with random := d.random.next.2 }) := rfl

theorem request_cases (b : Builtin) (args : List Value) :
    (∃ v, b = .input ∧ args = [v]) ∨ (b = .random ∧ args = []) ∨ b.Plain args := by
  by_cases reads : b = .input ∧ args.length = 1
  · obtain ⟨rfl, one⟩ := reads
    obtain ⟨v, rfl⟩ := List.length_eq_one_iff.mp one
    exact .inl ⟨v, rfl, rfl⟩
  by_cases draws : b = .random ∧ args = []
  · exact .inr (.inl draws)
  · exact .inr (.inr ⟨fun same one => reads ⟨same, one⟩, fun same none => draws ⟨same, none⟩⟩)

theorem call_free (b : Builtin) (it : Interpreter) (args : List Value) {d : Devices} (free : d.Free) :
    (b.call (it.equip d) args).2.devices.Free := by
  rcases request_cases b args with ⟨v, rfl, rfl⟩ | ⟨rfl, rfl⟩ | plain
  · rw [call_input it free]
    exact ⟨rfl, free.diag⟩
  · exact ⟨free.out, free.diag⟩
  · obtain ⟨e, _, answers⟩ := call_plain plain it d.video
    rw [answers d free rfl]
    exact ⟨rfl, rfl⟩

theorem call_shown (b : Builtin) (it : Interpreter) (args : List Value) {d : Devices} (free : d.Free) :
    (b.call (it.equip d) args).2.video.shown = b.shownAfter args d.video := by
  rcases request_cases b args with ⟨v, rfl, rfl⟩ | ⟨rfl, rfl⟩ | plain
  · rw [call_input it free]
    rfl
  · rfl
  · obtain ⟨e, shows, answers⟩ := call_plain plain it d.video
    rw [answers d free rfl]
    exact shows

/-- The same call with other random numbers. -/
theorem call_reseeded {b : Builtin} (other : b ≠ .random) (it : Interpreter) (args : List Value) {d : Devices}
    (free : d.Free) (g : Generator) :
    b.call (it.equip { d with random := g }) args =
      ((b.call (it.equip d) args).1, { (b.call (it.equip d) args).2 with random := g }) := by
  have free' : ({ d with random := g } : Devices).Free := ⟨free.out, free.diag⟩
  rcases request_cases b args with ⟨v, rfl, rfl⟩ | ⟨rfl, rfl⟩ | plain
  · rw [call_input it free, call_input it free']
    rfl
  · exact absurd rfl other
  · obtain ⟨e, _, answers⟩ := call_plain plain it d.video
    rw [answers d free rfl, answers _ free' rfl]
    rfl

end Builtin

/-! ### Steps -/

namespace Machine

def State.reseeded (s : State) (g : Generator) : State := { s with it := { s.it with random := g } }

/-- Whether the next step calls a builtin. -/
def State.calls (s : State) (b : Builtin) : Bool := s.request?.any (·.1 = b)

/-- Whether the next step makes a new frame. -/
def State.updates (s : State) : Bool := s.request?.any fun r => r.1 = .updateVideo ∧ r.2.isEmpty

section

variable {request : Option (Builtin × List Value)} {next : Devices → State} {d : Devices}

theorem Plays.free (plays : Plays request next) (free : d.Free) : (next d).it.devices.Free := by
  cases plays with
  | silent s same =>
    rw [same]
    exact free
  | asks b it args pos work same =>
    rw [same, giveOrFail_it]
    exact b.call_free it args free

theorem Plays.reseeded (plays : Plays request next) (other : ∀ args, request ≠ some (.random, args))
    (free : d.Free) (g : Generator) : next { d with random := g } = (next d).reseeded g := by
  cases plays with
  | silent s same =>
    rw [same, same]
    rfl
  | asks b it args pos work same =>
    have fixed : b ≠ .random := fun random => other args (by rw [random])
    rw [same, same, Builtin.call_reseeded fixed it args free]
    cases (b.call (it.equip d) args).1 <;> rfl

theorem Plays.shown (plays : Plays request next) (free : d.Free) :
    (next d).it.video.shown = request.elim d.video.shown fun r => r.1.shownAfter r.2 d.video := by
  cases plays with
  | silent s same =>
    rw [same]
    rfl
  | asks b it args pos work same =>
    rw [same, giveOrFail_it]
    exact b.call_shown it args free

end

variable {s : State}

theorem free_step (free : s.it.devices.Free) : (step s).it.devices.Free :=
  (plays_step s).free (d := s.it.devices) free

theorem step_reseeded (free : s.it.devices.Free) (other : s.calls .random = false) (g : Generator) :
    step (s.reseeded g) = (step s).reseeded g := by
  refine (plays_step s).reseeded (d := s.it.devices) (fun args asked => ?_) free g
  rw [State.calls, asked] at other
  cases other

theorem shown_step (free : s.it.devices.Free) :
    (step s).it.video.shown = if s.updates then s.it.video.update.shown else s.it.video.shown := by
  have shown : (step s).it.video.shown = _ := (plays_step s).shown (d := s.it.devices) free
  rw [shown, State.updates]
  cases s.request? with
  | none => rfl
  | some r => simp [Builtin.shownAfter, Interpreter.devices]

/-! ### Histories -/

/-- The states of a run before its end. -/
def states : Nat → State → List State
  | 0, _ => []
  | n + 1, s => if s.outcome?.isSome then [] else s :: states n (step s)

theorem states_of_running (running : s.outcome? = none) (n : Nat) :
    states (n + 1) s = s :: states n (step s) := by
  rw [states, running]
  rfl

/-- The last frame that was made on the way through some states. -/
def lastFrame (states : List State) : ByteArray :=
  ((states.filter State.updates).getLast?).elim Video.blackFrame (·.it.video.update.frame)

variable {n : Nat} {o : Interpreter.Outcome}

theorem free_run (free : s.it.devices.Free) (ran : run n s = some o) : o.2.devices.Free := by
  obtain ⟨last, free, _, same⟩ := run_ends (P := (·.it.devices.Free)) (fun _ => free_step) ran free
  exact same ▸ free

theorem run_reseeded (free : s.it.devices.Free) (ran : run n s = some o)
    (never : ∀ t ∈ states n s, t.calls .random = false) (g : Generator) :
    run n (s.reseeded g) = some (o.1, { o.2 with random := g }) := by
  induction n generalizing s with
  | zero => cases ran
  | succ n ih =>
    have outcomes : (s.reseeded g).outcome? = s.outcome? := rfl
    cases ended : s.outcome? with
    | some result =>
      rw [run, ended] at ran
      cases ran
      rw [run, outcomes, ended]
      rfl
    | none =>
      rw [run_of_running ended] at ran
      rw [states_of_running ended] at never
      obtain ⟨first, rest⟩ := List.forall_mem_cons.mp never
      rw [run_of_running (outcomes.trans ended), step_reseeded free first]
      exact ih (free_step free) ran rest

theorem shown_run (free : s.it.devices.Free) (ran : run n s = some o) :
    o.2.video.shown =
      (((states n s).filter State.updates).getLast?).elim s.it.video.shown (·.it.video.update.shown) := by
  induction n generalizing s with
  | zero => cases ran
  | succ n ih =>
    cases ended : s.outcome? with
    | some result =>
      rw [run, ended] at ran
      cases ran
      rw [states, ended]
      rfl
    | none =>
      rw [run_of_running ended] at ran
      rw [ih (free_step free) ran, states_of_running ended, shown_step free, List.filter_cons]
      cases s.updates with
      | false => rfl
      | true =>
        rw [if_pos rfl, if_pos rfl, List.getLast?_cons]
        cases ((states n (step s)).filter State.updates).getLast? <;> rfl

/-- The call of the main function makes no request. -/
theorem plays_main (it : Interpreter) : Plays none fun d => calling (it.equip d) "main" [] :=
  plays_invoke it it.pos "main" [] []

theorem free_main {it : Interpreter} (free : it.devices.Free) : (calling it "main" []).it.devices.Free :=
  (plays_main it).free (d := it.devices) free

theorem main_reseeded {it : Interpreter} (free : it.devices.Free) (g : Generator) :
    calling { it with random := g } "main" [] = (calling it "main" []).reseeded g :=
  (plays_main it).reseeded (d := it.devices) (fun _ none => by cases none) free g

theorem shown_main {it : Interpreter} (free : it.devices.Free) :
    (calling it "main" []).it.video.shown = it.video.shown :=
  (plays_main it).shown (d := it.devices) free

end Machine

/-! ### Programs -/

namespace Interpreter

/-- The states on the way through a program. -/
def programHistory (steps : Nat) (it : Interpreter) (program : Syntax.Program) : List Machine.State :=
  Machine.states steps (Machine.loading it program) ++
    match it.load steps program with
    | some (.ok _, mid) => Machine.states steps (Machine.calling mid "main" [])
    | _ => []

/-- The states on the way through a source text; one that cannot be read has none. -/
def history (steps : Nat) (it : Interpreter) (source : String) : List Machine.State :=
  match Syntax.parseSource source with
  | .ok program => it.programHistory steps program
  | .error _ => []

variable {n : Nat} {it : Interpreter} {program : Syntax.Program} {o : Outcome}

theorem programHistory_of_loaded {v : Value} {mid : Interpreter} (loaded : it.load n program = some (.ok v, mid)) :
    it.programHistory n program =
      Machine.states n (Machine.loading it program) ++ Machine.states n (Machine.calling mid "main" []) := by
  rw [programHistory, loaded]

theorem programHistory_of_failed {e : Error} {mid : Interpreter}
    (loaded : it.load n program = some (.error e, mid)) :
    it.programHistory n program = Machine.states n (Machine.loading it program) := by
  rw [programHistory, loaded, List.append_nil]

theorem runProgram_reseeded (free : it.devices.Free) (ran : it.runProgram n program = some o)
    (never : ∀ s ∈ it.programHistory n program, s.calls .random = false) (g : Generator) :
    Interpreter.runProgram n { it with random := g } program = some (o.1, { o.2 with random := g }) := by
  rcases runProgram_cases.mp ran with ⟨v, mid, loaded, main⟩ | ⟨e, mid, loaded, rfl⟩
  · rw [programHistory_of_loaded loaded] at never
    obtain ⟨early, late⟩ := List.forall_mem_append.mp never
    have free' : mid.devices.Free := Machine.free_run (s := Machine.loading it program) free loaded
    have main' := Machine.run_reseeded (Machine.free_main free') main late g
    rw [← Machine.main_reseeded free'] at main'
    exact runProgram_cases.mpr (.inl ⟨v, _, Machine.run_reseeded free loaded early g, main'⟩)
  · rw [programHistory_of_failed loaded] at never
    exact runProgram_cases.mpr (.inr ⟨e, _, Machine.run_reseeded free loaded never g, rfl⟩)

theorem runProgram_shown (free : it.devices.Free) (ran : it.runProgram n program = some o) :
    o.2.video.shown =
      (((it.programHistory n program).filter Machine.State.updates).getLast?).elim it.video.shown
        (·.it.video.update.shown) := by
  rcases runProgram_cases.mp ran with ⟨v, mid, loaded, main⟩ | ⟨e, mid, loaded, rfl⟩
  · have free' : mid.devices.Free := Machine.free_run (s := Machine.loading it program) free loaded
    have early := Machine.shown_run (s := Machine.loading it program) free loaded
    rw [Machine.shown_run (Machine.free_main free') main, Machine.shown_main free', early,
      programHistory_of_loaded loaded, List.filter_append, List.getLast?_append]
    cases ((Machine.states n (Machine.calling mid "main" [])).filter Machine.State.updates).getLast? <;> rfl
  · rw [programHistory_of_failed loaded]
    exact Machine.shown_run (s := Machine.loading it program) free loaded

end Interpreter

/-- The states that an execution goes through. -/
def history (steps : Nat) (source : String) (config : Config) (streams : Streams) : List Machine.State :=
  (Interpreter.new config streams).history steps source

section

variable {n depth : Nat} {seed : UInt64} {source : String} {streams : Streams} {o : Interpreter.Outcome}
  (free : streams.out.limit = none) (free' : streams.diag.limit = none)

include free free'

theorem execute_reseeded (ended : execute n source ⟨depth, seed⟩ streams = some o)
    (never : ∀ s ∈ history n source ⟨depth, seed⟩ streams, s.calls .random = false) (seed' : UInt64) :
    execute n source ⟨depth, seed'⟩ streams = some (o.1, { o.2 with random := Generator.ofSeed seed' }) := by
  unfold history Interpreter.history at never
  unfold execute Interpreter.runSource at ended ⊢
  cases parsed : Syntax.parseSource source with
  | ok program =>
    simp only [parsed] at ended never ⊢
    have new : (Interpreter.new ⟨depth, seed⟩ streams).devices.Free := ⟨free, free'⟩
    exact Interpreter.runProgram_reseeded new ended never _
  | error e =>
    simp only [parsed] at ended ⊢
    cases ended
    rfl

theorem execute_frame (ended : execute n source ⟨depth, seed⟩ streams = some o) :
    o.2.video.frame = Machine.lastFrame (history n source ⟨depth, seed⟩ streams) := by
  have shown : o.2.video.shown =
      (((history n source ⟨depth, seed⟩ streams).filter Machine.State.updates).getLast?).elim Picture.blank
        (·.it.video.update.shown) := by
    unfold history Interpreter.history
    unfold execute Interpreter.runSource at ended
    cases parsed : Syntax.parseSource source with
    | ok program =>
      simp only [parsed] at ended ⊢
      exact Interpreter.runProgram_shown ⟨free, free'⟩ ended
    | error e =>
      simp only [parsed] at ended ⊢
      cases ended
      rfl
  rw [Machine.lastFrame]
  cases last : ((history n source ⟨depth, seed⟩ streams).filter Machine.State.updates).getLast? with
  | none =>
    rw [last] at shown
    exact Video.frame_of_blank shown
  | some s =>
    rw [last] at shown
    rw [Video.Memory.frame, shown]
    rfl

end

end RetroScript

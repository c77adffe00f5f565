import RetroScript.CommandLine
import RetroScript.Proofs.Requests

/-!
# The command line and execution

A command line runs a program step by step at a console: lines are read one at a time, and what is
written is handed on at once, so that the machine keeps no streams of its own. `drive_console` says that
this comes to what a machine with all of its streams comes to, and `command_line_executes` what follows
for the exit code, the streams and the frame that is saved.
-/

namespace RetroScript

theorem splitLine_cons (b : UInt8) (bytes : List UInt8) :
    splitLine (b :: bytes) =
      if b = 10 then ([b], bytes) else (b :: (splitLine bytes).1, (splitLine bytes).2) := by
  unfold splitLine
  by_cases feed : b = 10
  · simp [feed]
  · simp only [List.dropWhile_cons, List.takeWhile_cons, ne_eq, feed, not_false_eq_true, decide_true, if_true,
      if_false]
    cases bytes.dropWhile fun b => decide ¬b = 10 <;> rfl

/-- A first line is a line by itself. -/
theorem splitLine_line (bytes : List UInt8) : splitLine (splitLine bytes).1 = ((splitLine bytes).1, []) := by
  induction bytes with
  | nil => rfl
  | cons b bytes ih =>
    rw [splitLine_cons]
    split
    · next feed => rw [splitLine_cons, if_pos feed]
    · next feed => rw [splitLine_cons, if_neg feed, ih]

namespace CommandLine

open Machine (State Plays step run)

/-! ### Steps -/

/-- Devices with nothing to read, and nothing written. -/
def quiet (d : Devices) : Devices := { d with input := [], out := {}, diag := {} }

theorem free_quiet (d : Devices) : (quiet d).Free := ⟨rfl, rfl⟩

/-- The console in front of some devices. -/
def consoleOf (d : Devices) (saved : Option (String × ByteArray)) : Console :=
  ⟨d.input, d.out.bytes, d.diag.bytes, saved⟩

/-- What a machine with its own streams has done, if one without them went on to `after` and wrote
`written` and `reported`. -/
structure Follows (d : Devices) (rest : List UInt8) (written reported : ByteArray) (after full : State) : Prop where
  same : drained after = drained full
  input : full.it.input = rest
  out : full.it.out.bytes = d.out.bytes ++ written
  diag : full.it.diag.bytes = d.diag.bytes ++ reported

theorem Follows.console {d : Devices} {rest : List UInt8} {written reported : ByteArray} {after full : State}
    (f : Follows d rest written reported after full) (saved : Option (String × ByteArray)) :
    consoleOf full.it.devices saved = ⟨rest, d.out.bytes ++ written, d.diag.bytes ++ reported, saved⟩ := by
  rw [← f.input, ← f.out, ← f.diag]
  rfl

theorem follows_giveOrFail {d : Devices} {rest : List UInt8} {written reported : ByteArray}
    {q full : Builtin.Answer} (result : q.1 = full.1)
    (same : q.2.equip (quiet q.2.devices) = full.2.equip (quiet full.2.devices))
    (input : full.2.input = rest) (out : full.2.out.bytes = d.out.bytes ++ written)
    (diag : full.2.diag.bytes = d.diag.bytes ++ reported) (pos : Position) (work : List Machine.Pending) :
    Follows d rest written reported (Machine.giveOrFail q.2 pos q.1 work)
      (Machine.giveOrFail full.2 pos full.1 work) := by
  obtain ⟨r, it⟩ := q
  obtain ⟨r', it'⟩ := full
  cases result
  cases r with
  | ok v => exact ⟨congrArg (State.mk · _ _) same, input, out, diag⟩
  | error f => exact ⟨congrArg (State.mk · _ _) same, input, out, diag⟩

section

variable {request : Option (Builtin × List Value)} {next : Devices → State} {d : Devices} (free : d.Free)

include free

/-- Without a line to read, the streams only take what is written. -/
theorem follows_silent (plays : Plays request next) (silent : ∀ v, request ≠ some (.input, [v])) :
    Follows d d.input (next (quiet d)).it.out.bytes (next (quiet d)).it.diag.bytes (next (quiet d)) (next d) := by
  cases plays with
  | silent s same =>
    rw [same, same]
    exact ⟨rfl, rfl, ByteArray.append_empty.symm, ByteArray.append_empty.symm⟩
  | asks b it args pos work same =>
    rw [same, same, Machine.giveOrFail_it]
    rcases b.request_cases args with ⟨v, rfl, rfl⟩ | ⟨rfl, rfl⟩ | plain
    · exact absurd rfl (silent v)
    · refine follows_giveOrFail ?_ ?_ ?_ ?_ ?_ pos work
      · rfl
      · rfl
      · rfl
      · exact ByteArray.append_empty.symm
      · exact ByteArray.append_empty.symm
    · obtain ⟨e, _, answers⟩ := Builtin.call_plain plain it d.video
      rw [answers d free rfl, answers (quiet d) (free_quiet d) rfl]
      refine follows_giveOrFail ?_ ?_ ?_ ?_ ?_ pos work
      · rfl
      · rfl
      · rfl
      · exact congrArg (d.out.bytes ++ ·) ByteArray.empty_append.symm
      · exact congrArg (d.diag.bytes ++ ·) ByteArray.empty_append.symm

/-- A prompt is written before the line is there, and the line is all that the step needs. -/
theorem follows_line {v : Value} (plays : Plays (some (.input, [v])) next) :
    Follows d (splitLine d.input).2 (next (quiet d)).it.out.bytes .empty
      (next { quiet d with input := (splitLine d.input).1 }) (next d) := by
  cases plays with
  | asks b it args pos work same =>
    have free' : ({ quiet d with input := (splitLine d.input).1 } : Devices).Free := ⟨rfl, rfl⟩
    have line := Builtin.call_input it free' v
    have full := Builtin.call_input it free v
    have prompt := Builtin.call_input it (free_quiet d) v
    rw [splitLine_line] at line
    rw [same, same, same, Machine.giveOrFail_it]
    refine follows_giveOrFail ?_ ?_ ?_ ?_ ?_ pos work
    · rw [line, full]
    · rw [line, full]
      rfl
    · rw [full]
      rfl
    · rw [full, prompt]
      exact congrArg (d.out.bytes ++ ·) ByteArray.empty_append.symm
    · rw [full]
      exact ByteArray.append_empty.symm

end

variable (dir : Directory) (saved : Option (String × ByteArray))

theorem advance_line {s : State} (reads : s.readsLine = true) (c : Console) :
    (dir.world.advance s).run c =
      some (drained (step { s with it := { s.it with input := (splitLine c.input).1 } }),
        { c with input := (splitLine c.input).2, out := c.out ++ (step s).it.out.bytes }) := by
  unfold World.advance
  rw [if_pos reads]
  rfl

theorem advance_silent {s : State} (silent : s.readsLine = false) (c : Console) :
    (dir.world.advance s).run c =
      some (drained (step s),
        { c with out := c.out ++ (step s).it.out.bytes, err := c.err ++ (step s).it.diag.bytes }) := by
  unfold World.advance
  rw [if_neg (by rw [silent]; exact Bool.false_ne_true)]
  rfl

theorem readsLine_iff {s : State} : s.readsLine = true ↔ ∃ v, s.request? = some (.input, [v]) := by
  unfold State.readsLine
  split
  · next v asked => exact ⟨fun _ => ⟨v, asked⟩, fun _ => rfl⟩
  · next other => exact ⟨fun no => (Bool.false_ne_true no).elim, fun ⟨v, asked⟩ => (other v asked).elim⟩

/-- A step at a console is a step of the machine with its streams. -/
theorem advance_console {s : State} (free : s.it.devices.Free) :
    (dir.world.advance (drained s)).run (consoleOf s.it.devices saved) =
      some (drained (step s), consoleOf (step s).it.devices saved) := by
  have plays := Machine.plays_step s
  by_cases reads : s.readsLine = true
  · obtain ⟨v, asked⟩ := readsLine_iff.mp reads
    rw [asked] at plays
    have follows := follows_line free plays
    have console := follows.console saved
    rw [ByteArray.append_empty] at console
    rw [advance_line dir (s := drained s) reads]
    exact congrArg some (Prod.ext follows.same console.symm)
  · have silent := Bool.eq_false_of_not_eq_true reads
    have follows := follows_silent free plays fun v asked => reads (readsLine_iff.mpr ⟨v, asked⟩)
    rw [advance_silent dir (s := drained s) silent]
    exact congrArg some (Prod.ext follows.same (follows.console saved).symm)

/-! ### Runs -/

/-- An interpreter that keeps no streams of its own. -/
def unplugged (it : Interpreter) : Interpreter := it.equip (quiet it.devices)

theorem drive_console {n : Nat} {s : State} {o : Interpreter.Outcome} (free : s.it.devices.Free)
    (ran : run n s = some o) :
    (dir.drive n (drained s)).run (consoleOf s.it.devices saved) =
      some ((o.1, unplugged o.2), consoleOf o.2.devices saved) := by
  induction n generalizing s with
  | zero => cases ran
  | succ n ih =>
    have outcomes : (drained s).outcome? = s.outcome? := rfl
    cases ended : s.outcome? with
    | some result =>
      rw [run, ended] at ran
      cases ran
      rw [Directory.drive, outcomes, ended]
      rfl
    | none =>
      rw [Machine.run_of_running ended] at ran
      rw [Directory.drive, outcomes, ended, StateT.run_bind, advance_console dir saved free]
      exact ih (Machine.free_step free) ran

/-- Without a request the streams do not matter. -/
theorem drained_next {next : Devices → State} (plays : Plays none next) (d : Devices) :
    next (quiet d) = drained (next d) ∧ (next d).it.devices = d := by
  cases plays with
  | silent s same =>
    rw [same, same]
    exact ⟨rfl, rfl⟩

theorem runSource_console {n : Nat} {it : Interpreter} {source : String} {o : Interpreter.Outcome}
    (free : it.devices.Free) (ran : it.runSource n source = some o) :
    (World.runSource (dir.drive n) (unplugged it) source).run (consoleOf it.devices saved) =
      some ((o.1, unplugged o.2), consoleOf o.2.devices saved) := by
  unfold Interpreter.runSource at ran
  unfold World.runSource
  cases parsed : Syntax.parseSource source with
  | error e =>
    simp only [parsed] at ran
    cases ran
    rfl
  | ok program =>
    simp only [parsed] at ran
    have load (mid : Interpreter.Outcome) (loaded : it.load n program = some mid) :
        (dir.drive n (Machine.loading (unplugged it) program)).run (consoleOf it.devices saved) = _ :=
      drive_console dir saved (s := Machine.loading it program) free loaded
    rcases Interpreter.runProgram_cases.mp ran with ⟨v, mid, loaded, main⟩ | ⟨e, mid, loaded, rfl⟩
    · have free' : mid.devices.Free := Machine.free_run (s := Machine.loading it program) free loaded
      obtain ⟨start, devices⟩ :
          Machine.calling (unplugged mid) "main" [] = drained (Machine.calling mid "main" []) ∧
            (Machine.calling mid "main" []).it.devices = mid.devices :=
        drained_next (Machine.plays_main mid) mid.devices
      have main := drive_console dir saved (Machine.free_main free') main
      rw [← start, devices] at main
      dsimp only
      rw [StateT.run_bind, load _ loaded]
      exact main
    · rw [StateT.run_bind, load _ loaded]
      rfl

/-! ### Jobs -/

theorem save_console (path : String) (bytes : ByteArray) (c : Console) :
    (dir.world.save path bytes).run c =
      some (dir.unsaved path, { c with saved := if dir.unsaved path = none then some (path, bytes) else c.saved }) := by
  unfold Directory.world
  cases refused : dir.unsaved path with
  | none =>
    simp only [refused]
    rfl
  | some message =>
    simp only [refused]
    rfl

theorem perform_run {n : Nat} {path source : String} {config : Config} {input : List UInt8} {o : Interpreter.Outcome}
    (found : dir.text path = .ok source) (ran : execute n source config { input } = some o)
    (frameOut : Option String) :
    (Job.run path config frameOut).perform n dir input =
      some {
        exit := (ending o.1 (frameOut.bind dir.unsaved)).1
        out := o.2.out.bytes
        err := o.2.diag.bytes ++ (ending o.1 (frameOut.bind dir.unsaved)).2.toUTF8
        saved := if frameOut.bind dir.unsaved = none then frameOut.map (·, o.2.video.file) else none } := by
  have free : (Interpreter.new config { input }).devices.Free := ⟨rfl, rfl⟩
  have source' : (World.runSource (dir.drive n) (Interpreter.new config {}) source).run { input } = _ :=
    runSource_console dir none free ran
  unfold Job.perform World.perform
  have text : dir.world.text path = pure (.ok source) := congrArg pure found
  dsimp only
  rw [text, pure_bind]
  dsimp only
  rw [StateT.run_bind, source']
  cases frameOut with
  | none => rfl
  | some target =>
    dsimp only [Option.bind_eq_bind, Option.bind_some]
    rw [StateT.run_bind, save_console]
    rfl

/-- The exit code that tells an outcome. -/
def exitCode : Except Error Value → Nat
  | .ok _ => 0
  | .error (.fatal _) => 2
  | .error _ => 1

/-- The line that tells an outcome. -/
def lastLine : Except Error Value → String
  | .ok _ => ""
  | .error e => "error: " ++ e.message ++ "\n"

theorem ending_saved (outcome : Except Error Value) :
    ending outcome none = (exitCode outcome, lastLine outcome) := by
  cases outcome with
  | ok v => rfl
  | error e => cases e <;> rfl

theorem job_run {o : Options} {path : String} (file : o.file = some path)
    (runs : o.outline = false ∧ o.listBuiltins = false) (chance : UInt64) :
    o.job chance = .run path ⟨o.maxDepth.getD 1000, o.seed.getD chance⟩ o.frameOut := by
  simp [Options.job, file, runs]

section

variable {args : List String} {o : Options} {path source : String} {n : Nat} {seed : UInt64} {input : List UInt8}
  {e : Interpreter.Outcome}

/-- Options without a seed leave it to chance, which a run without `random` does not see. -/
theorem execute_chance (ended : execute n source ⟨o.maxDepth.getD 1000, seed⟩ { input } = some e)
    (seeded : o.seed = some seed ∨
      o.seed = none ∧ ∀ s ∈ history n source ⟨o.maxDepth.getD 1000, seed⟩ { input }, s.calls .random = false)
    (chance : UInt64) :
    ∃ g, execute n source ⟨o.maxDepth.getD 1000, o.seed.getD chance⟩ { input } =
      some (e.1, { e.2 with random := g }) := by
  rcases seeded with given | ⟨absent, never⟩
  · rw [given]
    exact ⟨e.2.random, ended⟩
  · rw [absent]
    exact ⟨_, execute_reseeded rfl rfl ended never chance⟩

/-- A command line that runs a file tells what an execution of its text comes to, whatever that is; only a
frame that cannot be saved hides it. -/
theorem command_line_executes (dir : Directory) (chance : UInt64) (read : Options.read {} args = some o)
    (file : o.file = some path) (runs : o.outline = false ∧ o.listBuiltins = false)
    (found : dir.text path = .ok source)
    (ended : execute n source ⟨o.maxDepth.getD 1000, seed⟩ { input } = some e)
    (seeded : o.seed = some seed ∨
      o.seed = none ∧ ∀ s ∈ history n source ⟨o.maxDepth.getD 1000, seed⟩ { input }, s.calls .random = false) :
    ∃ report, ((Options.read {} args).bind fun o => (o.job chance).perform n dir input) = some report ∧
      report.out = e.2.out.bytes ∧
      (o.frameOut.bind dir.unsaved = none →
        report.exit = exitCode e.1 ∧
        report.err = e.2.diag.bytes ++ (lastLine e.1).toUTF8 ∧
        report.saved = o.frameOut.map fun target =>
          (target, "P6\n320 200\n255\n".toUTF8 ++
            Machine.lastFrame (history n source ⟨o.maxDepth.getD 1000, seed⟩ { input }))) ∧
      (o.frameOut.bind dir.unsaved ≠ none → report.exit = 1) := by
  obtain ⟨g, ended'⟩ := execute_chance ended seeded chance
  have performed := perform_run dir found ended' o.frameOut
  rw [← job_run file runs chance] at performed
  rw [read]
  refine ⟨_, performed, rfl, fun saved => ?_, fun unsaved => ?_⟩
  · have file : e.2.video.file = _ := congrArg (Video.fileHeader.toUTF8 ++ ·) (execute_frame rfl rfl ended)
    simp only [saved, ending_saved, if_true, file]
    exact ⟨trivial, trivial, rfl⟩
  · obtain ⟨message, refused⟩ := Option.ne_none_iff_exists'.mp unsaved
    rw [refused]
    rfl

end

/-- It asks for a name, shows a frame, and fails. -/
def visitor : String := "def main() print(input(\"name? \")); updateVideo(); return nobody; end"

theorem visitor_reported : ∃ report,
    ((Options.read {} ["--frame-out", "last.ppm", "-v", "visitor.bas"]).bind fun o =>
      (o.job 3).perform 60 { text := fun _ => .ok visitor, refusal := fun _ => none } [65, 110, 110, 10]) =
      some report ∧
    report.out = "name? Ann\n".toUTF8 ∧ report.exit = 1 ∧ report.saved.map (·.1) = some "last.ppm" := by
  have ends : (execute 60 visitor ⟨1000, 7⟩ { input := [65, 110, 110, 10] }).any
      (fun e => e.2.out.bytes = "name? Ann\n".toUTF8 ∧ exitCode e.1 = 1) = true := by decide +kernel
  obtain ⟨e, ended, told⟩ := (Option.any_eq_true _ _).mp ends
  obtain ⟨written, failed⟩ := of_decide_eq_true told
  have never : ∀ s ∈ history 60 visitor ⟨1000, 7⟩ { input := [65, 110, 110, 10] }, s.calls .random = false := by
    decide +kernel
  have read : Options.read {} ["--frame-out", "last.ppm", "-v", "visitor.bas"] =
      some { file := some "visitor.bas", frameOut := some "last.ppm", verbosity := 1 } := rfl
  obtain ⟨report, performed, out, told, _⟩ := command_line_executes
    { text := fun _ => .ok visitor, refusal := fun _ => none } 3 read rfl ⟨rfl, rfl⟩ rfl ended (.inr ⟨rfl, never⟩)
  obtain ⟨exit, _, saved⟩ := told rfl
  refine ⟨report, performed, out.trans written, exit.trans failed, ?_⟩
  rw [saved]
  rfl

end CommandLine

end RetroScript

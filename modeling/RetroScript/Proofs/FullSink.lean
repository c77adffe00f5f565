import RetroScript.Proofs.DepthLimit
import RetroScript.Proofs.Devices

/-!
# Sinks that get full

A run whose output goes to a sink with a limit does what it does without the limit, until a write
does not fit. That write fails, and no program can go on after a fault, so `out` has the first bytes
of the whole output and nothing is written behind them: `full_sink_stops`.
-/

namespace RetroScript

/-! ### Sinks -/

/-- The sink as it is if it takes `room` bytes in all. -/
def Sink.bounded (s : Sink) (room : Nat) : Sink := ⟨s.bytes.extract 0 room, some room⟩

theorem extract_of_size_le {bytes : ByteArray} {n : Nat} (short : bytes.size ≤ n) : bytes.extract 0 n = bytes := by
  have whole : bytes.extract 0 (max n bytes.size) = bytes := ByteArray.extract_zero_max_size
  rwa [Nat.max_eq_left short] at whole

theorem Sink.bounded_of_fits {s : Sink} {room : Nat} (fits : s.bytes.size ≤ room) :
    s.bounded room = ⟨s.bytes, some room⟩ := by
  rw [bounded, extract_of_size_le fits]

theorem Sink.write_free {s : Sink} (free : s.limit = none) (text : String) :
    s.write text = (true, ⟨s.bytes ++ text.toUTF8, none⟩) := by
  obtain ⟨bytes, limit⟩ := s
  cases free
  rfl

theorem Sink.write_bounded {s : Sink} {room : Nat} (free : s.limit = none) (fits : s.bytes.size ≤ room)
    (text : String) :
    (s.bounded room).write text =
      (decide ((s.write text).2.bytes.size ≤ room), (s.write text).2.bounded room) := by
  rw [bounded_of_fits fits, write_free free]
  unfold write
  dsimp only
  by_cases enough : text.toUTF8.size ≤ room - s.bytes.size
  · have all : (s.bytes ++ text.toUTF8).size ≤ room := by
      rw [ByteArray.size_append]
      omega
    rw [if_pos enough, bounded_of_fits all, decide_eq_true all]
  · have more : ¬ (s.bytes ++ text.toUTF8).size ≤ room := by
      rw [ByteArray.size_append]
      omega
    rw [if_neg enough, decide_eq_false more, bounded, ByteArray.extract_append, extract_of_size_le fits,
      Nat.zero_sub]

/-- What is written behind a full sink does not matter. -/
theorem Sink.Grows.bounded {s s' : Sink} (grows : s.Grows s') {room : Nat} (full : room < s.bytes.size) :
    s'.bounded room = s.bounded room := by
  obtain ⟨more, same⟩ := grows
  have nothing : more.extract 0 0 = .empty := ByteArray.extract_same
  have none : room - s.bytes.size = 0 := by omega
  rw [Sink.bounded, Sink.bounded, same, ByteArray.extract_append, Nat.zero_sub, none, nothing,
    ByteArray.append_empty]

theorem Sink.Grows.size_le {s s' : Sink} (grows : s.Grows s') : s.bytes.size ≤ s'.bytes.size := by
  obtain ⟨more, same⟩ := grows
  rw [same, ByteArray.size_append]
  omega

def Interpreter.bounded (it : Interpreter) (room : Nat) : Interpreter := { it with out := it.out.bounded room }

/-! ### Builtins -/

namespace Builtin

/-- The builtins that write to `out`. -/
def Writes (b : Builtin) : Prop := b = .print ∨ b = .input

/-- The answer of a builtin with a bounded sink, if it is `answer` with a free one. -/
inductive Bounds (room : Nat) (b : Builtin) (it : Interpreter) (answer : Answer) : Answer → Prop where
  | same (free : answer.2.out.limit = none) (fits : answer.2.out.bytes.size ≤ room) :
    Bounds room b it answer (answer.1, answer.2.bounded room)
  | full (writes : b.Writes) (beyond : room < answer.2.out.bytes.size) :
    Bounds room b it answer (b.fault { it with out := answer.2.out.bounded room } (.stream .full))

variable {it : Interpreter} {room : Nat} (free : it.out.limit = none) (fits : it.out.bytes.size ≤ room)

include free fits

theorem write_cases (b : Builtin) (text : String) :
    (it.out.write text).2.bytes.size ≤ room ∧
        b.write (it.bounded room) text = done { it with out := (it.out.write text).2.bounded room } ∨
      room < (it.out.write text).2.bytes.size ∧
        b.write (it.bounded room) text =
          b.fault { it with out := (it.out.write text).2.bounded room } (.stream .full) := by
  have written : (it.bounded room).out.write text = _ := Sink.write_bounded free fits text
  unfold write
  rw [written]
  by_cases all : (it.out.write text).2.bytes.size ≤ room
  · exact Or.inl ⟨all, if_pos (decide_eq_true all)⟩
  · exact Or.inr ⟨by omega, if_neg (by simpa using all)⟩

omit fits in
theorem write_free (b : Builtin) (text : String) :
    b.write it text = done { it with out := (it.out.write text).2 } := by
  unfold write
  rw [Sink.write_free free]
  rfl

omit fits in
theorem limit_write_free (text : String) : (it.out.write text).2.limit = none := by
  rw [Sink.limit_write, free]

theorem bounds_write (b : Builtin) (writes : b.Writes) (text : String) :
    Bounds room b it (b.write it text) (b.write (it.bounded room) text) := by
  rw [write_free free]
  rcases write_cases free fits b text with ⟨all, same⟩ | ⟨beyond, same⟩
  · rw [same]
    exact .same (limit_write_free free text) all
  · rw [same]
    exact .full writes beyond

theorem bounds_readLine (b : Builtin) (writes : b.Writes) (prompt : String) :
    Bounds room b it (b.readLine it prompt) (b.readLine (it.bounded room) prompt) := by
  have stays := limit_write_free free prompt
  unfold readLine
  rw [write_free free]
  rcases write_cases free fits b prompt with ⟨all, same⟩ | ⟨beyond, same⟩
  · rw [same]
    dsimp only [done]
    cases lineText (splitLine it.input).1 with
    | ok line => exact .same stays all
    | error fault => exact .same stays all
  · -- With a free sink the prompt is out, and whatever the input has, the sink is too full.
    rw [same]
    dsimp only [done, fault]
    cases lineText (splitLine it.input).1 with
    | ok line => exact .full writes beyond
    | error fault => exact .full writes beyond

theorem bounds_lift (b : Builtin) (r : Except BuiltinFault Value) :
    Bounds room b it (b.lift it r) (b.lift (it.bounded room) r) := by
  cases r <;> exact .same free fits

theorem bounds_check (b : Builtin) (l r : Value) (message : String) :
    Bounds room b it (check it l r message) (check (it.bounded room) l r message) := by
  have heap : (it.bounded room).heap = it.heap := rfl
  unfold check
  rw [heap]
  split <;> exact .same free fits

theorem bounds_draw (b : Builtin) (numbers : List Int) :
    Bounds room b it (b.draw it numbers) (b.draw (it.bounded room) numbers) := by
  unfold draw
  dsimp only
  split
  · split <;> exact .same free fits
  all_goals exact .same free fits

theorem bounds_act (b : Builtin) (args : List Value) :
    Bounds room b it (b.act it args) (b.act (it.bounded room) args) := by
  unfold act
  split
  case h_1 => exact bounds_write free fits _ (Or.inl rfl) _
  case h_2 => exact bounds_readLine free fits _ (Or.inr rfl) _
  case h_6 | h_7 | h_8 => exact bounds_lift free fits _ _
  case h_12 v =>
    have dumped : (it.bounded room).dump (v.text (it.bounded room).heap) =
        (it.dump (v.text it.heap)).map id (·.bounded room) := rfl
    have free' : (it.dump (v.text it.heap)).2.out.limit = none := free
    have fits' : (it.dump (v.text it.heap)).2.out.bytes.size ≤ room := fits
    rw [dumped]
    generalize it.dump (v.text it.heap) = report at free' fits' ⊢
    obtain ⟨_ | _, after⟩ := report
    · exact .same free' fits'
    · exact .same free' fits'
  case h_13 => exact bounds_check free fits _ _ _ _
  case h_14 =>
    split
    · exact bounds_check free fits _ _ _ _
    · exact .same free fits
  case h_17 =>
    split
    · exact bounds_draw free fits _ _
    · exact .same free fits
  all_goals exact .same free fits

theorem bounds_call (b : Builtin) (args : List Value) :
    Bounds room b it (b.call it args) (b.call (it.bounded room) args) := by
  unfold call
  dsimp only
  split
  · exact .same free fits
  · exact bounds_act free fits b args

end Builtin

/-! ### Steps -/

namespace Machine

open Builtin (Writes)

def State.bounded (s : State) (room : Nat) : State := { s with it := s.it.bounded room }

/-- Where a machine with a bounded sink is, if one with a free sink is at `s`: there too, or on its way
out with the fault of a write. -/
inductive Follows (room : Nat) (s : State) : State → Prop where
  | same (free : s.it.out.limit = none) (fits : s.it.out.bytes.size ≤ room) : Follows room s (s.bounded room)
  | full {b : Builtin} {it : Interpreter} {pos : Position} {work : List Pending} (writes : b.Writes)
      (beyond : room < s.it.out.bytes.size) (out : it.out = s.it.out.bounded room)
      (diag : it.diag.Grows s.it.diag) :
    Follows room s ⟨it, .fail pos (.builtin b.name (.stream .full)), work⟩

theorem Plays.follows {request : Option (Builtin × List Value)} {next : Devices → State}
    (plays : Plays request next) {d : Devices} {room : Nat}
    (free : d.out.limit = none) (fits : d.out.bytes.size ≤ room) :
    Follows room (next d) (next { d with out := d.out.bounded room }) := by
  cases plays with
  | silent s same =>
    rw [same, same]
    exact .same (s := s.equip d) free fits
  | asks b it args pos work same =>
    have free' : (it.equip d).out.limit = none := free
    have bounds := Builtin.bounds_call free' (by exact fits) b args
    have grows := Builtin.grows_call (it.equip d) b args
    have swapped : it.equip { d with out := d.out.bounded room } = (it.equip d).bounded room := rfl
    rw [same, same, swapped]
    generalize b.call (it.equip d) args = answer at bounds grows ⊢
    generalize b.call ((it.equip d).bounded room) args = answer' at bounds ⊢
    obtain ⟨result, after⟩ := answer
    cases bounds with
    | same free' fits' => cases result <;> exact .same (s := ⟨after, _, work⟩) free' fits'
    | full writes beyond => cases result <;> exact .full writes beyond rfl grows.diag

theorem follows_step {s : State} {room : Nat} (free : s.it.out.limit = none)
    (fits : s.it.out.bytes.size ≤ room) : Follows room (step s) (step (s.bounded room)) :=
  (plays_step s).follows (d := s.it.devices) free fits

theorem follows_calling {it : Interpreter} {room : Nat} (free : it.out.limit = none)
    (fits : it.out.bytes.size ≤ room) (name : String) (args : List Value) :
    Follows room (calling it name args) (calling (it.bounded room) name args) :=
  (plays_invoke it it.pos name args []).follows (d := it.devices) free fits

/-! ### Runs -/

/-- What comes out with a bounded sink, if it is `o` with a free one. -/
inductive Curtails (room : Nat) (o : Interpreter.Outcome) : Interpreter.Outcome → Prop where
  | whole (free : o.2.out.limit = none) (fits : o.2.out.bytes.size ≤ room) :
    Curtails room o (o.1, o.2.bounded room)
  | cut {b : Builtin} {pos : Position} {last : Interpreter} (writes : b.Writes)
      (beyond : room < o.2.out.bytes.size) (out : last.out = o.2.out.bounded room)
      (diag : last.diag.Grows o.2.diag) :
    Curtails room o (.error (.eval pos (.builtin b.name (.stream .full))), last)

/-- What comes after a write that does not fit makes no difference. -/
theorem curtails_cut {room : Nat} {it last : Interpreter} {b : Builtin} (writes : b.Writes)
    (beyond : room < it.out.bytes.size) (out : last.out = it.out.bounded room)
    (diag : last.diag.Grows it.diag) {o : Interpreter.Outcome} (later : it.Grows o.2) (pos : Position) :
    Curtails room o (.error (.eval pos (.builtin b.name (.stream .full))), last) := by
  refine .cut writes ?_ ?_ (diag.trans later.diag)
  · exact Nat.lt_of_lt_of_le beyond later.out.size_le
  · rw [out, later.out.bounded beyond]

theorem run_curtailed {room n : Nat} {s s' : State} {o : Interpreter.Outcome} (follows : Follows room s s')
    (ran : run n s = some o) : ∃ m o', run m s' = some o' ∧ Curtails room o o' := by
  induction n generalizing s s' with
  | zero => cases ran
  | succ n ih =>
    cases follows with
    | full writes beyond out diag =>
      -- The run with the free sink goes on, and all it can do is write more.
      obtain ⟨m, last, failed, outs, diags⟩ := run_fail _ _ _ _
      refine ⟨m, _, failed, curtails_cut writes beyond (outs.trans out) ?_ (grows_run ran) _⟩
      rw [diags]
      exact diag
    | same free fits =>
      have outcomes : (s.bounded room).outcome? = s.outcome? := rfl
      cases ended : s.outcome? with
      | some result =>
        rw [run, ended] at ran
        cases ran
        refine ⟨1, (result, s.it.bounded room), ?_, .whole free fits⟩
        rw [run, outcomes, ended]
        rfl
      | none =>
        rw [run_of_running ended] at ran
        obtain ⟨m, o', ran', curtails⟩ := ih (follows_step free fits) ran
        exact ⟨m + 1, o', (run_of_running (outcomes.trans ended) m).trans ran', curtails⟩

end Machine

/-! ### Programs -/

open Machine (Curtails)

theorem runProgram_curtailed {room n : Nat} {it : Interpreter} (free : it.out.limit = none)
    (fits : it.out.bytes.size ≤ room) (program : Syntax.Program) {o : Interpreter.Outcome}
    (ran : it.runProgram n program = some o) :
    ∃ m o', (it.bounded room).runProgram m program = some o' ∧ Curtails room o o' := by
  have start : Machine.Follows room (Machine.loading it program) (Machine.loading (it.bounded room) program) :=
    .same free fits
  rcases Interpreter.runProgram_cases.mp ran with ⟨v, mid, loaded, main⟩ | ⟨e, mid, loaded, rfl⟩
  · obtain ⟨m, _, loaded', curtails⟩ := Machine.run_curtailed start loaded
    cases curtails with
    | whole free' fits' =>
      obtain ⟨k, o', main', curtails⟩ := Machine.run_curtailed (Machine.follows_calling free' fits' "main" []) main
      refine ⟨max m k, o', Interpreter.runProgram_cases.mpr (.inl ⟨v, mid.bounded room, ?_, ?_⟩), curtails⟩
      · exact Machine.run_mono (Nat.le_max_left m k) loaded'
      · exact Machine.run_mono (Nat.le_max_right m k) main'
    | cut writes beyond out diag =>
      have later := Interpreter.grows_callFunction mid "main" [] main
      refine ⟨m, _, Interpreter.runProgram_cases.mpr (.inr ⟨_, _, loaded', rfl⟩), ?_⟩
      exact Machine.curtails_cut writes beyond out diag later _
  · obtain ⟨m, _, loaded', curtails⟩ := Machine.run_curtailed start loaded
    refine ⟨m, _, Interpreter.runProgram_cases.mpr (.inr ?_), curtails⟩
    cases curtails with
    | whole _ _ => exact ⟨_, _, loaded', rfl⟩
    | cut _ _ _ _ => exact ⟨_, _, loaded', rfl⟩

theorem execute_curtailed (source : String) (config : Config) (streams : Streams) (room : Nat) {n : Nat}
    {o : Interpreter.Outcome} (ended : execute n source config { streams with out := {} } = some o) :
    ∃ m o', execute m source config { streams with out := ⟨.empty, some room⟩ } = some o' ∧ Curtails room o o' := by
  have empty : ({} : Sink).bounded room = ⟨.empty, some room⟩ := Sink.bounded_of_fits (Nat.zero_le room)
  have new : Interpreter.new config { streams with out := ⟨.empty, some room⟩ } =
      (Interpreter.new config { streams with out := {} }).bounded room :=
    congrArg (fun out => Interpreter.new config { streams with out }) empty.symm
  unfold execute Interpreter.runSource at ended ⊢
  rw [new]
  cases parsed : Syntax.parseSource source with
  | ok program =>
    simp only [parsed] at ended ⊢
    exact runProgram_curtailed rfl (Nat.zero_le room) program ended
  | error e =>
    simp only [parsed] at ended ⊢
    cases ended
    exact ⟨0, _, rfl, .whole rfl (Nat.zero_le room)⟩

/-- A sink that gets full stops the run, and has the first bytes of the whole output. -/
theorem full_sink_stops (source : String) (config : Config) (streams : Streams) (room : Nat) {n : Nat}
    {o : Interpreter.Outcome} (ended : execute n source config { streams with out := {} } = some o) :
    ∃ m o', execute m source config { streams with out := ⟨.empty, some room⟩ } = some o' ∧
      o'.2.out.bytes = o.2.out.bytes.extract 0 room ∧
      (o.2.out.bytes.size ≤ room → o' = (o.1, { o.2 with out := ⟨o.2.out.bytes, some room⟩ })) ∧
      (room < o.2.out.bytes.size → o'.2.diag.Grows o.2.diag ∧ ∃ pos, ∃ b ∈ [Builtin.print, .input],
        o'.1 = .error (.eval pos (.builtin b.name (.stream .full)))) := by
  obtain ⟨m, o', ended', curtails⟩ := execute_curtailed source config streams room ended
  refine ⟨m, o', ended', ?_⟩
  cases curtails with
  | whole _ fits =>
    refine ⟨rfl, fun _ => ?_, fun beyond => by omega⟩
    rw [Interpreter.bounded, Sink.bounded_of_fits fits]
  | @cut b pos last writes beyond out diag =>
    have found : b ∈ [Builtin.print, .input] := by simpa [Builtin.Writes] using writes
    exact ⟨congrArg Sink.bytes out, fun fits => by omega, fun _ => ⟨diag, pos, b, found, rfl⟩⟩

/-- The second line that it prints does not fit into four bytes. -/
def talker : String := "def main() print(\"ab\"); return [f(1)]; end def f(x) print(\"cd\"); print(x); return x; end"

theorem full_sink_stops_talker : ∃ m o', execute m talker ⟨1000, 7⟩ { out := ⟨.empty, some 4⟩ } = some o' ∧
    o'.2.out.bytes = "ab\nc".toUTF8 ∧ ∃ pos, ∃ b ∈ [Builtin.print, .input],
      o'.1 = .error (.eval pos (.builtin b.name (.stream .full))) := by
  have free : (execute 60 talker ⟨1000, 7⟩ {}).any
      (fun o => o.2.out.bytes = "ab\ncd\n1\n".toUTF8) = true := by decide +kernel
  obtain ⟨o, ended, written⟩ := (Option.any_eq_true _ _).mp free
  have whole : o.2.out.bytes = "ab\ncd\n1\n".toUTF8 := of_decide_eq_true written
  obtain ⟨m, o', ended', bytes, _, cut⟩ := full_sink_stops talker ⟨1000, 7⟩ {} 4 ended
  rw [whole] at bytes cut
  exact ⟨m, o', ended', bytes.trans (by decide), (cut (by decide)).2⟩

end RetroScript

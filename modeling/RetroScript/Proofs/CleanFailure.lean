import Mathlib.Data.List.Basic
import RetroScript.Proofs.Builtins

/-!
# Failures of builtins

A builtin reads its arguments before it acts, so a call that it refuses leaves no trace. Only those that write
can fail later, and a video mode may be unknown: `Judged` says this once for every builtin, and `fails_cleanly`
collects what follows.
-/

namespace RetroScript

/-- A wrong number of arguments, or an argument of the wrong kind. -/
def BuiltinFault.IsRefusal : BuiltinFault → Prop
  | .arity .. | .argument .. | .length _ | .keys _ => True
  | .videoMode _ | .stream _ => False

namespace Builtin

/-! ### Arguments that fit -/

/-- Whether a value of this kind is taken as the argument with this index. -/
def takes (b : Builtin) (index : Nat) (kind : Value.Kind) : Bool :=
  match b, index with
  | .print, _ | .input, _ | .debug, _ => true
  | .len, _ => kind = .array || kind = .string
  | .keys, _ => kind = .map
  | .substr, 0 | .replace, _ | .assert, 2 => kind = .string
  | .assert, _ => true
  | _, _ => kind = .number

def takesFrom (b : Builtin) (index : Nat) : List Value → Bool
  | [] => true
  | v :: vs => b.takes index v.kind && b.takesFrom (index + 1) vs

def Counted (b : Builtin) (args : List Value) : Prop := b.arity.1 ≤ args.length ∧ args.length ≤ b.arity.2

/-- As many arguments as are taken, each of a kind that is taken. -/
def Fits (b : Builtin) (args : List Value) : Prop := b.Counted args ∧ b.takesFrom 0 args = true

section

variable {b : Builtin} {args : List Value} (counted : b.Counted args)
include counted

theorem Counted.none (arity : b.arity = (0, 0)) : args = [] := by
  rw [Counted, arity] at counted
  exact List.length_eq_zero_iff.mp (by omega)

theorem Counted.one (arity : b.arity = (1, 1)) : ∃ v, args = [v] := by
  rw [Counted, arity] at counted
  exact List.length_eq_one_iff.mp (by omega)

theorem Counted.three (arity : b.arity = (3, 3)) : ∃ u v w, args = [u, v, w] := by
  rw [Counted, arity] at counted
  exact List.length_eq_three.mp (by omega)

theorem Counted.twoOrThree (arity : b.arity = (2, 3)) : ∃ u v, ∃ w : Option Value, args = u :: v :: w.toList := by
  rw [Counted, arity] at counted
  rcases Nat.lt_or_ge args.length 3 with less | more
  · obtain ⟨u, v, rfl⟩ := List.length_eq_two.mp (show args.length = 2 by omega)
    exact ⟨u, v, Option.none, rfl⟩
  · obtain ⟨u, v, w, rfl⟩ := List.length_eq_three.mp (show args.length = 3 by omega)
    exact ⟨u, v, some w, rfl⟩

end

/-- Arguments are read, or refused if they do not fit. -/
def Reads {α : Type} (r : Except BuiltinFault α) (fits : Prop) : Prop :=
  (fits ∧ ∃ a, r = .ok a) ∨ (¬ fits ∧ ∃ f, r = .error f ∧ f.IsRefusal)

section

variable {α β : Type} {p q : Prop}

theorem reads_pure (a : α) : Reads (pure a) True := Or.inl ⟨trivial, a, rfl⟩

theorem Reads.bind {r : Except BuiltinFault α} {next : α → Except BuiltinFault β} (first : Reads r p)
    (second : ∀ a, Reads (next a) q) : Reads (r >>= next) (p ∧ q) := by
  rcases first with ⟨fits, a, rfl⟩ | ⟨refused, f, rfl, refusal⟩
  · rcases second a with ⟨fits', b, read⟩ | ⟨refused', f, failed, refusal⟩
    · exact Or.inl ⟨⟨fits, fits'⟩, b, read⟩
    · exact Or.inr ⟨fun both => refused' both.2, f, failed, refusal⟩
  · exact Or.inr ⟨fun both => refused both.1, f, rfl, refusal⟩

theorem reads_numberArg (index : Nat) (v : Value) : Reads (numberArg index v) (v.kind = .number) := by
  cases v with
  | number x => exact Or.inl ⟨rfl, x, rfl⟩
  | _ => exact Or.inr ⟨nofun, _, rfl, trivial⟩

theorem reads_stringArg (index : Nat) (v : Value) : Reads (stringArg index v) (v.kind = .string) := by
  cases v with
  | string s => exact Or.inl ⟨rfl, s, rfl⟩
  | _ => exact Or.inr ⟨nofun, _, rfl, trivial⟩

theorem reads_integerArgs (index : Nat) (args : List Value) :
    Reads (integerArgs index args) (∀ v ∈ args, v.kind = .number) := by
  induction args generalizing index with
  | nil => exact Or.inl ⟨nofun, [], rfl⟩
  | cons v vs ih =>
    have read := (reads_numberArg index v).bind fun x =>
      (ih (index + 1)).bind fun numbers => reads_pure (Number.truncate x :: numbers)
    rw [List.forall_mem_cons]
    rw [and_true] at read
    exact read

theorem reads_substring (s start : Value) (length : Option Value) :
    Reads (substring s start length)
      (s.kind = .string ∧ start.kind = .number ∧ ∀ v ∈ length, v.kind = .number) := by
  refine (reads_stringArg 0 s).bind fun s => (reads_numberArg 1 start).bind fun start => ?_
  cases length with
  | none => exact Or.inl ⟨nofun, _, rfl⟩
  | some length =>
    have read := (reads_numberArg 2 length).bind fun x =>
      reads_pure (Value.string (String.ofList (slice s.toList (Number.truncate start) (Number.truncate x))))
    simpa using read

theorem reads_replaced (s old new : Value) :
    Reads (replaced s old new) (s.kind = .string ∧ old.kind = .string ∧ new.kind = .string ∧ True) :=
  (reads_stringArg 0 s).bind fun s => (reads_stringArg 1 old).bind fun old =>
    (reads_stringArg 2 new).bind fun new => reads_pure (Value.string (replaceAll s old new))

end

/-! ### How calls end -/

/-- How a call whose arguments fit may fail: the fault, and the state after it. -/
inductive FailsLate (b : Builtin) (it : Interpreter) : Fault → Interpreter → Prop where
  | mode (n : Int) (known : b = .setVideoMode) : FailsLate b it (.builtin b.name (.videoMode n)) it
  | stream (f : StreamFault) (after : Interpreter) (known : b ∈ [.print, .input, .debug]) :
    FailsLate b it (.builtin b.name (.stream f)) after
  | assertion (message left right : String) (after : Interpreter) (known : b = .assert) :
    FailsLate b it (.assertion message left right) after

structure Judged (b : Builtin) (it : Interpreter) (fits : Prop) (answer : Answer) : Prop where
  refused : ¬ fits → ∃ f, answer = b.fault it f ∧ f.IsRefusal
  late : fits → ∀ f, answer.1 = .error f → FailsLate b it f answer.2

variable {b : Builtin} {it : Interpreter} {p q : Prop} {answer : Answer}

theorem Judged.congr (judged : Judged b it p answer) (same : q ↔ p) : Judged b it q answer :=
  ⟨fun off => judged.refused (mt same.mpr off), fun fits => judged.late (same.mp fits)⟩

theorem judged_value {v : Value} (fits : p) (it' : Interpreter) : Judged b it p (.ok v, it') :=
  ⟨fun off => (off fits).elim, nofun⟩

theorem judged_fault {f : BuiltinFault} (off : ¬ p) (refusal : f.IsRefusal) : Judged b it p (b.fault it f) :=
  ⟨fun _ => ⟨f, rfl, refusal⟩, fun fits => (off fits).elim⟩

theorem judged_late (fits : p) (late : ∀ f, answer.1 = .error f → FailsLate b it f answer.2) : Judged b it p answer :=
  ⟨fun off => (off fits).elim, fun _ => late⟩

theorem judged_lift {r : Except BuiltinFault Value} (reads : Reads r p) : Judged b it p (b.lift it r) := by
  rcases reads with ⟨fits, v, rfl⟩ | ⟨off, f, rfl, refusal⟩
  · exact judged_value fits it
  · exact judged_fault off refusal

theorem write_late (member : b ∈ [.print, .input, .debug]) (text : String) (f : Fault)
    (failed : (b.write it text).1 = .error f) : FailsLate b it f (b.write it text).2 := by
  unfold write at failed ⊢
  cases fits : (it.out.write text).1 with
  | true => simp [fits, done] at failed
  | false =>
    simp only [fits, Bool.false_eq_true, if_false, fault, Except.error.injEq] at failed ⊢
    rw [← failed]
    exact .stream .full _ member

theorem readLine_late (prompt : String) (f : Fault) (failed : (input.readLine it prompt).1 = .error f) :
    FailsLate input it f (input.readLine it prompt).2 := by
  have writes : ∀ f, (input.write it prompt).1 = .error f → FailsLate .input it f (input.write it prompt).2 :=
    write_late (by decide) prompt
  unfold readLine at failed ⊢
  generalize input.write it prompt = written at *
  rcases written with ⟨g | v, it'⟩
  · exact writes f failed
  · dsimp only at failed ⊢
    split at failed
    · cases failed
    · cases failed
      exact .stream _ _ (by decide)

theorem check_late (l r : Value) (message : String) (f : Fault) (failed : (check it l r message).1 = .error f) :
    FailsLate .assert it f (check it l r message).2 := by
  unfold check at failed ⊢
  by_cases same : l.equal it.heap r = true
  · rw [if_pos same] at failed
    cases failed
  · rw [if_neg same] at failed ⊢
    cases failed
    exact .assertion _ _ _ _ rfl

theorem draw_late (numbers : List Int) (f : Fault) (failed : (b.draw it numbers).1 = .error f) :
    FailsLate b it f (b.draw it numbers).2 := by
  unfold draw at failed ⊢
  dsimp only at failed ⊢
  split at failed
  · split at failed
    · cases failed
    · cases failed
      exact .mode _ rfl
  all_goals cases failed

theorem takesFrom_drawing (numeric : ∀ i k, b.takes i k = decide (k = .number)) (index : Nat) (args : List Value) :
    b.takesFrom index args = true ↔ ∀ v ∈ args, v.kind = .number := by
  induction args generalizing index with
  | nil => exact ⟨fun _ => nofun, fun _ => rfl⟩
  | cons v vs ih =>
    rw [takesFrom, numeric, Bool.and_eq_true, decide_eq_true_eq, ih, List.forall_mem_cons]

/-- What a builtin does whose arguments are all integers. -/
def drawWith (b : Builtin) (it : Interpreter) (r : Except BuiltinFault (List Int)) : Answer :=
  match r with
  | .ok numbers => b.draw it numbers
  | .error f => b.fault it f

theorem judged_drawing (numeric : ∀ i k, b.takes i k = decide (k = .number)) {args : List Value}
    (acts : b.act it args = b.drawWith it (integerArgs 0 args)) :
    Judged b it (b.takesFrom 0 args = true) (b.act it args) := by
  apply Judged.congr _ (takesFrom_drawing numeric 0 args)
  rw [acts]
  rcases reads_integerArgs 0 args with ⟨fits, numbers, read⟩ | ⟨off, f, failed, refusal⟩
  · rw [read]
    exact judged_late fits (draw_late numbers)
  · rw [failed]
    exact judged_fault off refusal

theorem judged_substring (s start : Value) (length : Option Value) :
    Judged .substr it (substr.takesFrom 0 (s :: start :: length.toList) = true)
      (substr.lift it (substring s start length)) := by
  apply (judged_lift (reads_substring s start length)).congr
  cases length <;> simp [takesFrom, takes]

/-- The inversion lemma: what a call with the right number of arguments comes to, one case for each builtin. -/
theorem judged_act (it : Interpreter) {args : List Value} (counted : b.Counted args) :
    Judged b it (b.takesFrom 0 args = true) (b.act it args) := by
  cases b with
  | print =>
    obtain ⟨v, rfl⟩ := counted.one rfl
    exact judged_late rfl (write_late (by decide) _)
  | input =>
    obtain ⟨v, rfl⟩ := counted.one rfl
    exact judged_late rfl (readLine_late _)
  | len =>
    obtain ⟨v, rfl⟩ := counted.one rfl
    cases v with
    | array ref => exact judged_value rfl it
    | string s => exact judged_value rfl it
    | _ => exact judged_fault nofun trivial
  | substr =>
    obtain ⟨s, start, length, rfl⟩ := counted.twoOrThree rfl
    cases length with
    | none => exact judged_substring s start none
    | some length => exact judged_substring s start (some length)
  | replace =>
    obtain ⟨s, old, new, rfl⟩ := counted.three rfl
    apply (judged_lift (reads_replaced s old new)).congr
    simp [takesFrom, takes]
  | keys =>
    obtain ⟨v, rfl⟩ := counted.one rfl
    cases v with
    | map ref => exact judged_value rfl _
    | _ => exact judged_fault nofun trivial
  | debug =>
    obtain ⟨v, rfl⟩ := counted.one rfl
    apply judged_late rfl
    intro f failed
    dsimp only [act] at failed ⊢
    generalize it.dump (v.text it.heap) = dumped at *
    rcases dumped with ⟨_ | _, it'⟩
    · cases failed
      exact .stream _ _ (by decide)
    · cases failed
  | assert =>
    obtain ⟨l, r, message, rfl⟩ := counted.twoOrThree rfl
    cases message with
    | none => exact judged_late rfl (check_late l r _)
    | some message =>
      have taken : assert.takesFrom 0 [l, r, message] = true ↔ message.kind = .string := by
        simp [takesFrom, takes]
      apply Judged.congr _ taken
      dsimp only [act, Option.toList]
      rcases reads_stringArg 2 message with ⟨fits, text, read⟩ | ⟨off, f, failed, refusal⟩
      · rw [read]
        exact judged_late fits (check_late l r text)
      · rw [failed]
        exact judged_fault off refusal
  | random =>
    obtain rfl := counted.none rfl
    exact judged_value rfl _
  | clearVideo =>
    obtain rfl := counted.none rfl
    exact judged_value rfl _
  | updateVideo =>
    obtain rfl := counted.none rfl
    exact judged_value rfl _
  | setVideoMode => exact judged_drawing (fun _ _ => rfl) rfl
  | setPixel => exact judged_drawing (fun _ _ => rfl) rfl
  | drawLine => exact judged_drawing (fun _ _ => rfl) rfl
  | drawCircle => exact judged_drawing (fun _ _ => rfl) rfl
  | fillCircle => exact judged_drawing (fun _ _ => rfl) rfl

theorem judged_call (b : Builtin) (it : Interpreter) (args : List Value) :
    Judged b it (b.Fits args) (b.call it args) := by
  unfold call
  dsimp only
  by_cases count : args.length < b.arity.1 ∨ b.arity.2 < args.length
  · have off : ¬ b.Fits args := by
      rintro ⟨counted, -⟩
      unfold Counted at counted
      omega
    rw [if_pos count]
    exact judged_fault off trivial
  · have counted : b.Counted args := ⟨by omega, by omega⟩
    rw [if_neg count]
    exact (judged_act it counted).congr (and_iff_right counted)

/-! ### Arguments by their index -/

/-- Arguments that are read by their index; none if there is no such argument. -/
abbrev Indexed := ExceptT BuiltinFault Option

def numberAt (args : List Value) (i : Nat) : Indexed Float := ExceptT.mk (args[i]?.map (numberArg i))

def stringAt (args : List Value) (i : Nat) : Indexed String := ExceptT.mk (args[i]?.map (stringArg i))

def integersAt (args : List Value) (i : Nat) : Nat → Indexed (List Int)
  | 0 => pure []
  | n + 1 => do
    let x ← numberAt args i
    return Number.truncate x :: (← integersAt args (i + 1) n)

def substringAt (args : List Value) : Indexed Value := do
  let s ← stringAt args 0
  let start ← numberAt args 1
  let cs := s.toList
  if args.length = 3 then
    let length ← numberAt args 2
    return .string (String.ofList (slice cs (Number.truncate start) (Number.truncate length)))
  else return .string (String.ofList (slice cs (Number.truncate start) cs.length))

def replacedAt (args : List Value) : Indexed Value := do
  let s ← stringAt args 0
  let old ← stringAt args 1
  let new ← stringAt args 2
  return .string (replaceAll s old new)

/-- `act` and `call`, where each argument is read when it is needed. -/
def act? (b : Builtin) (it : Interpreter) (args : List Value) : Option Answer :=
  match b with
  | .random | .clearVideo | .updateVideo => some (b.act it [])
  | .print | .input | .len | .keys | .debug => do return b.act it [← args[0]?]
  | .substr => do return b.lift it (← (substringAt args).run)
  | .replace => do return b.lift it (← (replacedAt args).run)
  | .assert => do
    match ← if args.length = 3 then (stringAt args 2).run else some (.ok "Incorrect value") with
    | .ok message => return check it (← args[0]?) (← args[1]?) message
    | .error f => return b.fault it f
  | b => do return b.drawWith it (← (integersAt args 0 b.arity.2).run)

def call? (b : Builtin) (it : Interpreter) (args : List Value) : Option Answer :=
  if args.length < b.arity.1 ∨ b.arity.2 < args.length then
    some (b.fault it (.arity b.arity.1 b.arity.2 args.length))
  else b.act? it args

theorem run_bind {α β : Type} {m : Indexed α} {r : Except BuiltinFault α} {next : α → Indexed β}
    {next' : α → Except BuiltinFault β} (first : m.run = some r) (second : ∀ a, (next a).run = some (next' a)) :
    (m >>= next).run = some (r >>= next') := by
  rw [ExceptT.run_bind, first]
  cases r with
  | ok a => exact second a
  | error f => rfl

theorem run_substringAt (s start : Value) (length : Option Value) :
    (substringAt (s :: start :: length.toList)).run = some (substring s start length) := by
  apply run_bind rfl
  intro s
  apply run_bind rfl
  intro start
  cases length with
  | none => rfl
  | some length =>
    apply run_bind rfl
    intro length
    rfl

theorem run_replacedAt (s old new : Value) : (replacedAt [s, old, new]).run = some (replaced s old new) := by
  apply run_bind rfl
  intro s
  apply run_bind rfl
  intro old
  apply run_bind rfl
  intro new
  rfl

theorem run_integersAt {args rest : List Value} {i : Nat} (left : args.drop i = rest) :
    (integersAt args i rest.length).run = some (integerArgs i rest) := by
  induction rest generalizing i with
  | nil => rfl
  | cons v vs ih =>
    have found : args[i]? = some v := by
      rw [← List.head?_drop, left]
      rfl
    have later : args.drop (i + 1) = vs := by
      rw [← List.tail_drop, left]
      rfl
    have first : (numberAt args i).run = some (numberArg i v) := by
      show args[i]?.map (numberArg i) = _
      rw [found]
      rfl
    apply run_bind first
    intro x
    apply run_bind (ih later)
    intro numbers
    rfl

theorem act?_drawing {args : List Value} (count : args.length = b.arity.2)
    (acts : b.act it args = b.drawWith it (integerArgs 0 args))
    (acts' : b.act? it args = (integersAt args 0 b.arity.2).run.bind fun r => some (b.drawWith it r)) :
    b.act? it args = some (b.act it args) := by
  have read : (integersAt args 0 args.length).run = some (integerArgs 0 args) := run_integersAt rfl
  rw [acts', acts, ← count, read, Option.bind_some]

theorem act?_eq (it : Interpreter) {args : List Value} (counted : b.Counted args) :
    b.act? it args = some (b.act it args) := by
  have whole : b.arity.1 = b.arity.2 → args.length = b.arity.2 := fun same =>
    Nat.le_antisymm counted.2 (same ▸ counted.1)
  cases b with
  | random =>
    obtain rfl := counted.none rfl
    rfl
  | clearVideo =>
    obtain rfl := counted.none rfl
    rfl
  | updateVideo =>
    obtain rfl := counted.none rfl
    rfl
  | substr =>
    obtain ⟨s, start, length, rfl⟩ := counted.twoOrThree rfl
    unfold act?
    dsimp only
    rw [run_substringAt]
    cases length <;> rfl
  | replace =>
    obtain ⟨s, old, new, rfl⟩ := counted.three rfl
    unfold act?
    dsimp only
    rw [run_replacedAt]
    rfl
  | assert =>
    obtain ⟨l, r, message, rfl⟩ := counted.twoOrThree rfl
    cases message with
    | none => rfl
    | some message => cases message <;> rfl
  | setVideoMode => exact act?_drawing (whole rfl) rfl rfl
  | setPixel => exact act?_drawing (whole rfl) rfl rfl
  | drawLine => exact act?_drawing (whole rfl) rfl rfl
  | drawCircle => exact act?_drawing (whole rfl) rfl rfl
  | fillCircle => exact act?_drawing (whole rfl) rfl rfl
  | _ =>
    obtain ⟨v, rfl⟩ := counted.one rfl
    rfl

theorem call?_eq (b : Builtin) (it : Interpreter) (args : List Value) : b.call? it args = some (b.call it args) := by
  unfold call? call
  dsimp only
  by_cases count : args.length < b.arity.1 ∨ b.arity.2 < args.length
  · rw [if_pos count, if_pos count]
  · rw [if_neg count, if_neg count]
    exact act?_eq it ⟨by omega, by omega⟩

/-! ### All calls -/

/-- What holds for a call of a builtin, whatever its arguments are. -/
structure FailsCleanly (b : Builtin) (it : Interpreter) (args : List Value) : Prop where
  refused : ¬ b.Fits args → ∃ f : BuiltinFault, b.call it args = (.error (.builtin b.name f), it) ∧ f.IsRefusal
  refusal : ∀ name f, (b.call it args).1 = .error (.builtin name f) → f.IsRefusal →
    ¬ b.Fits args ∧ (b.call it args).2 = it
  /-- All builtins but those that write. -/
  unchanged : b ∉ [.print, .input, .debug, .assert] → ∀ f, (b.call it args).1 = .error f → (b.call it args).2 = it
  inside : b.call? it args = some (b.call it args)
  scopes : (b.call it args).2.arena = it.arena ∧ (b.call it args).2.active = it.active
  constants : (b.call it args).2.consts = it.consts
  calls : (b.call it args).2.frames = it.frames
  arrays : ∀ ref < it.heap.arrays.size, (b.call it args).2.heap.arrays[ref]? = it.heap.arrays[ref]?
  maps : (b.call it args).2.heap.maps = it.heap.maps
  functions : (b.call it args).2.heap.closures = it.heap.closures

theorem FailsLate.unchanged {f : Fault} {after : Interpreter} (late : FailsLate b it f after)
    (silent : b ∉ [.print, .input, .debug, .assert]) : after = it := by
  cases late with
  | mode => rfl
  | stream _ _ known =>
    apply (silent _).elim
    simp only [List.mem_cons, List.not_mem_nil, or_false] at known ⊢
    tauto
  | assertion _ _ _ _ known =>
    apply (silent _).elim
    rw [known]
    decide

theorem FailsLate.not_refusal {name : String} {f : BuiltinFault} {after : Interpreter}
    (late : FailsLate b it (.builtin name f) after) : ¬ f.IsRefusal := by
  cases late <;> exact id

theorem Answers.heap_keeps (answers : Answers it answer) :
    (∀ ref < it.heap.arrays.size, answer.2.heap.arrays[ref]? = it.heap.arrays[ref]?) ∧
      answer.2.heap.maps = it.heap.maps ∧ answer.2.heap.closures = it.heap.closures := by
  rcases answers.result with ⟨same, -⟩ | ⟨names, made⟩
  · rw [same]
    exact ⟨fun _ _ => rfl, rfl, rfl⟩
  · obtain ⟨-, heap⟩ := Prod.mk.inj made
    rw [heap]
    refine ⟨fun ref inside => ?_, rfl, rfl⟩
    show (it.heap.arrays.push _)[ref]? = _
    rw [Array.getElem?_push_lt inside, Array.getElem?_eq_getElem inside]

theorem fails_cleanly (b : Builtin) (it : Interpreter) (args : List Value) : FailsCleanly b it args := by
  have judged := judged_call b it args
  have answers := answers_call it b args
  have keeps := answers.heap_keeps
  constructor
  case refused => exact judged.refused
  case refusal =>
    intro name f failed refusal
    by_cases fits : b.Fits args
    · exact ((judged.late fits _ failed).not_refusal refusal).elim
    · obtain ⟨g, answer, -⟩ := judged.refused fits
      exact ⟨fits, by rw [answer]; rfl⟩
  case unchanged =>
    intro silent f failed
    by_cases fits : b.Fits args
    · exact (judged.late fits f failed).unchanged silent
    · obtain ⟨g, answer, -⟩ := judged.refused fits
      rw [answer]
      rfl
  case inside => exact call?_eq b it args
  case scopes =>
    rw [answers.frame]
    exact ⟨rfl, rfl⟩
  case constants => rw [answers.frame]
  case calls => rw [answers.frame]
  case arrays => exact keeps.1
  case maps => exact keeps.2.1
  case functions => exact keeps.2.2

end Builtin

end RetroScript

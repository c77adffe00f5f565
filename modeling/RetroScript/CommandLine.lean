import RetroScript.Session
import RetroScript.Syntax.Outline
import RetroScript.Video.Frame

/-!
# The command line

Arguments are read into options, options choose a job, and a job is done in a world of files and
streams. In a simulated world it comes to a report: an exit code, what is written to the two streams,
and the frame that is saved.
-/
namespace RetroScript.CommandLine

/-! ### Options -/

structure Options where
  file : Option String := none
  /-- Show the program as a tree instead of running it. -/
  outline : Bool := false
  maxDepth : Option Nat := none
  seed : Option UInt64 := none
  /-- The file for the last frame. -/
  frameOut : Option String := none
  listBuiltins : Bool := false
  verbosity : Nat := 0

/-- Options that stand alone. -/
inductive Flag where
  | outline | listBuiltins | verbose

/-- Options that take a value. -/
inductive Setting where
  | maxDepth | seed | frameOut

def Flag.ofName? : String → Option Flag
  | "ast" => some .outline
  | "list-builtins" => some .listBuiltins
  | "verbose" => some .verbose
  | _ => none

def Setting.ofName? : String → Option Setting
  | "max-depth" => some .maxDepth
  | "seed" => some .seed
  | "frame-out" => some .frameOut
  | _ => none

/-- A natural number below 2⁶⁴: digits, after a plus sign or none. -/
def word? (text : String) : Option Nat :=
  let digits := match text.toList with
    | '+' :: rest => rest
    | cs => cs
  if digits ≠ [] ∧ digits.all Char.isDigit then
    let n := digits.foldl (fun n c => 10 * n + (c.toNat - '0'.toNat)) 0
    if n < 18446744073709551616 then some n else none
  else none

/-- A path is not empty. -/
def path? (text : String) : Option String := if text.isEmpty then none else some text

namespace Options

/-- Only the flag for more messages can be given again. -/
def addFlag (o : Options) : Flag → Option Options
  | .outline => if o.outline then none else some { o with outline := true }
  | .listBuiltins => if o.listBuiltins then none else some { o with listBuiltins := true }
  | .verbose => some { o with verbosity := o.verbosity + 1 }

/-- A setting is given once. -/
def addSetting (o : Options) (s : Setting) (value : String) : Option Options :=
  match s with
  | .maxDepth =>
    if o.maxDepth.isSome then none else (word? value).map fun n => { o with maxDepth := some n }
  | .seed =>
    if o.seed.isSome then none else (word? value).map fun n => { o with seed := some n.toUInt64 }
  | .frameOut =>
    if o.frameOut.isSome then none else (path? value).map fun p => { o with frameOut := some p }

/-- There is one file at most. -/
def addFile (o : Options) (path : String) : Option Options :=
  if o.file.isSome then none else (path? path).map fun p => { o with file := some p }

/-- A cluster of short options. -/
def addShort (o : Options) (letters : List Char) : Option Options :=
  letters.foldlM (fun o c => if c = 'v' then o.addFlag .verbose else none) o

/-- All arguments from here on are files. -/
def addFiles (o : Options) (paths : List String) : Option Options := paths.foldlM addFile o

/-- An argument by its form. -/
inductive Argument where
  /-- The mark that ends the options. -/
  | mark
  | long (name : String)
  | assigned (name value : String)
  | short (letters : List Char)
  | plain

/-- A lone hyphen is a file. -/
def Argument.of (arg : String) : Argument :=
  match arg.toList with
  | ['-', '-'] => .mark
  | '-' :: '-' :: cs =>
    let name := String.ofList (cs.takeWhile (· ≠ '='))
    match cs.dropWhile (· ≠ '=') with
    | [] => .long name
    | _ :: value => .assigned name (String.ofList value)
  | '-' :: c :: cs => .short (c :: cs)
  | _ => .plain

/-- Reads arguments into options; none if they are not well-formed. A setting takes the next argument
as its value, which must not look like an option. -/
def read (o : Options) (args : List String) : Option Options :=
  match args with
  | [] => some o
  | arg :: args =>
    match Argument.of arg with
    | .mark => o.addFiles args
    | .assigned name value =>
      match (Setting.ofName? name).bind (o.addSetting · value) with
      | some o => o.read args
      | none => none
    | .short letters =>
      match o.addShort letters with
      | some o => o.read args
      | none => none
    | .plain =>
      match o.addFile arg with
      | some o => o.read args
      | none => none
    | .long name =>
      match Flag.ofName? name with
      | some flag =>
        match o.addFlag flag with
        | some o => o.read args
        | none => none
      | none =>
        match args with
        | [] => none
        | value :: args =>
          match Argument.of value, (Setting.ofName? name).bind (o.addSetting · value) with
          | .plain, some o => o.read args
          | _, _ => none

end Options

/-! ### Jobs and reports -/

inductive Job where
  /-- Write a text. -/
  | say (text : String)
  /-- Show the program in a file as a tree. -/
  | outline (path : String)
  /-- Run the program in a file; then save a frame if there is a path for it. -/
  | run (path : String) (config : Config) (frameOut : Option String)

def builtinList : String := String.join (Builtin.all.map fun b => b.name ++ "\n")

def greeting : String := "benji - run a program, e.g.: benji demo.bas\n"

/-- What options ask for; `chance` is the seed if they give none. -/
def Options.job (o : Options) (chance : UInt64) : Job :=
  if o.listBuiltins then .say builtinList
  else
    match o.file with
    | none => .say greeting
    | some path =>
      if o.outline then .outline path
      else .run path { maxDepth := o.maxDepth.getD 1000, seed := o.seed.getD chance } o.frameOut

def errorLine (message : String) : String := "error: " ++ message ++ "\n"

/-- Why a file cannot be read, cannot be created, or cannot be filled. -/
def unreadable (path reason : String) : String := "reading " ++ path ++ ": " ++ reason

def uncreatable (path reason : String) : String := "creating " ++ path ++ ": " ++ reason

def unwritable (path reason : String) : String := "writing " ++ path ++ ": " ++ reason

/-- Two after a fatal error, one after any other. -/
def Error.exit (e : Error) : Nat := if e.isFatal then 2 else 1

/-- How a run ends: an exit code, and a last line for the error stream. A frame that could not be
saved hides the outcome. -/
def ending (outcome : Except Error Value) (unsaved : Option String) : Nat × String :=
  match unsaved, outcome with
  | some message, _ => (1, errorLine message)
  | none, .ok _ => (0, "")
  | none, .error e => (Error.exit e, errorLine e.message)

/-! ### Worlds -/

/-- The files and streams around a command line. -/
structure World (m : Type → Type) where
  /-- The text of a file, or why it cannot be read. -/
  text : String → m (Except String String)
  /-- Saves a file; says why if that is not possible. -/
  save : String → ByteArray → m (Option String)
  /-- Writes to the output. -/
  out : ByteArray → m Unit
  /-- Writes to the error stream. -/
  err : ByteArray → m Unit
  /-- Reads input through the next line feed. -/
  line : m (List UInt8)

/-- A machine with nothing to read, and nothing written. -/
def drained (s : Machine.State) : Machine.State :=
  { s with it := { s.it with input := [], out := {}, diag := {} } }

namespace World

variable {m : Type → Type} [Monad m] (w : World m)

/-- One step of a machine that keeps no streams of its own. What the step writes is handed on at once, and
a line is read only by a step that needs one, when its prompt is out. -/
@[inline] def advance (s : Machine.State) : m Machine.State := do
  if s.readsLine then
    w.out (Machine.step s).it.out.bytes
    let line ← w.line
    return drained (Machine.step { s with it := { s.it with input := line } })
  else
    let s := Machine.step s
    w.out s.it.out.bytes
    w.err s.it.diag.bytes
    return drained s

/-- Reads, loads and runs a source text; `drive` takes a machine to its end. -/
def runSource (drive : Machine.State → m Interpreter.Outcome) (it : Interpreter) (source : String) :
    m Interpreter.Outcome := do
  match Syntax.parseSource source with
  | .error e => return (.error e, it)
  | .ok program =>
    match ← drive (Machine.loading it program) with
    | (.ok _, it) => drive (Machine.calling it "main" [])
    | failed => return failed

/-- Ends with a message. -/
def fail (message : String) : m Nat := do
  w.err (errorLine message).toUTF8
  return 1

/-- Does a job, and gives the exit code. The frame is saved before the outcome is told. -/
def perform (drive : Machine.State → m Interpreter.Outcome) (job : Job) : m Nat := do
  match job with
  | .say text =>
    w.out text.toUTF8
    return 0
  | .outline path =>
    match ← w.text path with
    | .error reason => w.fail (unreadable path reason)
    | .ok source =>
      match Syntax.parseSource source with
      | .error e => w.fail e.message
      | .ok program =>
        w.out (program.outline.pretty ++ "\n").toUTF8
        return 0
  | .run path config frameOut =>
    match ← w.text path with
    | .error reason => w.fail (unreadable path reason)
    | .ok source =>
      let (outcome, it) ← runSource drive (Interpreter.new config {}) source
      let unsaved ← match frameOut with
        | some target => w.save target it.video.file
        | none => pure none
      let (exit, last) := ending outcome unsaved
      w.err last.toUTF8
      return exit

end World

/-! ### Simulation -/

/-- The files that a command line can see. -/
structure Directory where
  /-- The text of a file, or why it cannot be read. -/
  text : String → Except String String
  /-- Why a file cannot be created, if it cannot. -/
  refusal : String → Option String
  /-- Why a file that was created cannot be filled, if it cannot. -/
  shortage : String → Option String := fun _ => none

/-- Why a file cannot be saved, if it cannot. -/
def Directory.unsaved (dir : Directory) (path : String) : Option String :=
  ((dir.refusal path).map (uncreatable path)).or ((dir.shortage path).map (unwritable path))

/-- What is still to be read, and what has been written so far. -/
structure Console where
  input : List UInt8
  out : ByteArray := ByteArray.empty
  err : ByteArray := ByteArray.empty
  /-- The path and content of the file that is written. -/
  saved : Option (String × ByteArray) := none

/-- What runs at a console, unless it takes too many steps. -/
abbrev Simulation := StateT Console Option

/-- The world of a directory and a console. -/
@[inline] def Directory.world (dir : Directory) : World Simulation where
  text path := return dir.text path
  save path bytes := do
    match dir.unsaved path with
    | some message => return some message
    | none =>
      modify fun c => { c with saved := some (path, bytes) }
      return none
  out bytes := modify fun c => { c with out := c.out ++ bytes }
  err bytes := modify fun c => { c with err := c.err ++ bytes }
  line := modifyGet fun c =>
    let (line, rest) := splitLine c.input
    (line, { c with input := rest })

/-- Takes a machine to its end, in at most `n` steps. -/
def Directory.drive (dir : Directory) : Nat → Machine.State → Simulation Interpreter.Outcome
  | 0, _ => failure
  | n + 1, s =>
    match s.outcome? with
    | some outcome => return (outcome, s.it)
    | none => do dir.drive n (← dir.world.advance s)

/-- What a command line comes to. -/
structure Report where
  exit : Nat := 0
  out : ByteArray := ByteArray.empty
  err : ByteArray := ByteArray.empty
  saved : Option (String × ByteArray) := none

/-- Does a job in a directory, with some input. -/
def Job.perform (steps : Nat) (dir : Directory) (input : List UInt8) (job : Job) : Option Report :=
  ((dir.world.perform (dir.drive steps) job).run { input }).map fun (exit, console) =>
    { exit, out := console.out, err := console.err, saved := console.saved }

end RetroScript.CommandLine

import RetroScript.Machine.Step

/-!
# What a host can do with an interpreter

Load a program, run it, call its functions, hold values and collect garbage. Whatever runs code
takes a bound on the number of steps and gives nothing if that is not enough.
-/
namespace RetroScript

/-- Settings of an interpreter. -/
structure Config where
  /-- The number of calls that may be in progress when another one starts. -/
  maxDepth : Nat := 1000
  /-- The seed of the random numbers. -/
  seed : UInt64

/-- The streams of an interpreter. -/
structure Streams where
  input : List UInt8 := []
  out : Sink := {}
  diag : Sink := {}

namespace Interpreter

def new (config : Config) (streams : Streams) : Interpreter where
  limit := config.maxDepth
  random := Generator.ofSeed config.seed
  input := streams.input
  out := streams.out
  diag := streams.diag

/-- What an operation of the host comes to, and the interpreter after it. -/
abbrev Outcome := Except Error Value × Interpreter

/-- Evaluates constants and assignments in order, then defines functions, and checks that there is a
main function. -/
def load (steps : Nat) (it : Interpreter) (program : Syntax.Program) : Option Outcome :=
  Machine.run steps (Machine.loading it program)

/-- Calls a builtin or a function that the active scope knows. -/
def callFunction (steps : Nat) (it : Interpreter) (name : String) (args : List Value) :
    Option Outcome :=
  Machine.run steps (Machine.calling it name args)

/-- Calls the main function. -/
def runMain (steps : Nat) (it : Interpreter) : Option Outcome := it.callFunction steps "main" []

/-- Loads and runs a program. -/
def runProgram (steps : Nat) (it : Interpreter) (program : Syntax.Program) : Option Outcome :=
  match it.load steps program with
  | some (.ok _, it) => it.runMain steps
  | other => other

/-- Reads and loads a source text. -/
def loadSource (steps : Nat) (it : Interpreter) (source : String) : Option Outcome :=
  match Syntax.parseSource source with
  | .ok program => it.load steps program
  | .error e => some (.error e, it)

/-- Reads, loads and runs a source text. -/
def runSource (steps : Nat) (it : Interpreter) (source : String) : Option Outcome :=
  match Syntax.parseSource source with
  | .ok program => it.runProgram steps program
  | .error e => some (.error e, it)

def constant? (it : Interpreter) (name : String) : Option Value := it.consts.find? name

/-- A global variable or a function of the program. -/
def global? (it : Interpreter) (name : String) : Option Value :=
  it.arena.lookup Arena.globalScope name

def callDepth (it : Interpreter) : Nat := it.frames.size

def liveScopes (it : Interpreter) : Nat := it.arena.live

/-- Holds a value in a slot, in place of what was there. -/
def keep (it : Interpreter) (slot : Nat) (v : Value) : Interpreter :=
  { it with kept := (slot, v) :: it.kept.filter (·.1 ≠ slot) }

def kept? (it : Interpreter) (slot : Nat) : Option Value := it.kept.lookup slot

/-- Lets go of the value in a slot. -/
def drop (it : Interpreter) (slot : Nat) : Interpreter :=
  { it with kept := it.kept.filter (·.1 ≠ slot) }

/-- Frees the scopes that cannot be reached; tells how many. -/
def collectGarbage (it : Interpreter) : Nat × Interpreter := it.collect []

end Interpreter

/-- Reads, loads and runs a source text with a new interpreter. -/
def execute (steps : Nat) (source : String) (config : Config) (streams : Streams) :
    Option Interpreter.Outcome :=
  (Interpreter.new config streams).runSource steps source

end RetroScript

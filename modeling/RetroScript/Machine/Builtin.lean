import RetroScript.Machine.Interpreter
import RetroScript.Value.Equality
import RetroScript.Video.Circle
import RetroScript.Video.Line

/-!
# Builtin functions

Each builtin checks the number of its arguments, then their kinds in order, and only then acts. A
call gives a value or a fault, and the state after it.
-/
namespace RetroScript

inductive Builtin where
  | print | input | len | substr | replace | keys | random | debug | assert
  | setVideoMode | setPixel | drawLine | drawCircle | fillCircle | clearVideo | updateVideo
  deriving DecidableEq, Repr

namespace Builtin

def name : Builtin → String
  | .print => "print"
  | .input => "input"
  | .len => "len"
  | .substr => "substr"
  | .replace => "replace"
  | .keys => "keys"
  | .random => "random"
  | .debug => "debug"
  | .assert => "assert"
  | .setVideoMode => "setVideoMode"
  | .setPixel => "setPixel"
  | .drawLine => "drawLine"
  | .drawCircle => "drawCircle"
  | .fillCircle => "fillCircle"
  | .clearVideo => "clearVideo"
  | .updateVideo => "updateVideo"

/-- All builtins, by ascending name. -/
def all : List Builtin :=
  [.assert, .clearVideo, .debug, .drawCircle, .drawLine, .fillCircle, .input, .keys, .len, .print,
   .random, .replace, .setPixel, .setVideoMode, .substr, .updateVideo]

def ofName? (name : String) : Option Builtin := all.find? (·.name = name)

/-- The least and the greatest number of arguments. -/
def arity : Builtin → Nat × Nat
  | .print | .input | .len | .keys | .debug | .setVideoMode => (1, 1)
  | .substr | .assert => (2, 3)
  | .replace | .setPixel => (3, 3)
  | .random | .clearVideo | .updateVideo => (0, 0)
  | .drawLine => (5, 5)
  | .drawCircle | .fillCircle => (4, 4)

/-- A value or a fault, and the state after it. -/
abbrev Answer := Except Fault Value × Interpreter

def fault (b : Builtin) (it : Interpreter) (f : BuiltinFault) : Answer := (.error (.builtin b.name f), it)

def done (it : Interpreter) : Answer := (.ok .null, it)

/-! ### Arguments -/

/-- The argument with the given index as a number. -/
def numberArg (index : Nat) (v : Value) : Except BuiltinFault Float :=
  match v with
  | .number x => .ok x
  | other => .error (.argument index .number other.kind)

/-- The argument with the given index as a string. -/
def stringArg (index : Nat) (v : Value) : Except BuiltinFault String :=
  match v with
  | .string s => .ok s
  | other => .error (.argument index .string other.kind)

/-- Arguments from the given index on as integers. -/
def integerArgs (index : Nat) : List Value → Except BuiltinFault (List Int)
  | [] => .ok []
  | v :: vs => do
    let x ← numberArg index v
    return Number.truncate x :: (← integerArgs (index + 1) vs)

/-! ### Text -/

/-- The characters of a text from `start`, at most `length` of them; both are brought into range. -/
def slice (cs : List Char) (start length : Int) : List Char :=
  let count : Int := cs.length
  let first := max 0 (min start count)
  let last := max 0 (min (first + length) count)
  (cs.drop first.toNat).take (last - first).toNat

/-- A text with every `old` replaced, from the left, after what has been written (last character
first). -/
def replaceFrom (old new : List Char) (written cs : List Char) : List Char :=
  match cs with
  | [] => written.reverse
  | c :: cs =>
    if old.isPrefixOf (c :: cs) then replaceFrom old new (new.reverse ++ written) (cs.drop (old.length - 1))
    else replaceFrom old new (c :: written) cs
termination_by cs.length
decreasing_by
  · simp only [List.length_drop, List.length_cons]; omega
  · simp

/-- A text with every `old` replaced; an empty `old` occurs nowhere. -/
def replaceAll (s old new : String) : String :=
  if old.isEmpty then s else String.ofList (replaceFrom old.toList new.toList [] s.toList)

def substring (s : Value) (start : Value) (length : Option Value) : Except BuiltinFault Value := do
  let s ← stringArg 0 s
  let start ← numberArg 1 start
  let cs := s.toList
  match length with
  | some length =>
    let length ← numberArg 2 length
    return .string (String.ofList (slice cs (Number.truncate start) (Number.truncate length)))
  | none => return .string (String.ofList (slice cs (Number.truncate start) cs.length))

def replaced (s old new : Value) : Except BuiltinFault Value := do
  let s ← stringArg 0 s
  let old ← stringArg 1 old
  let new ← stringArg 2 new
  return .string (replaceAll s old new)

/-! ### Streams -/

def write (b : Builtin) (it : Interpreter) (text : String) : Answer :=
  let (fits, out) := it.out.write text
  let it := { it with out }
  if fits then done it else b.fault it (.stream .full)

/-- Writes a prompt and reads a line. -/
def readLine (b : Builtin) (it : Interpreter) (prompt : String) : Answer :=
  match b.write it prompt with
  | (.error f, it) => (.error f, it)
  | (.ok _, it) =>
    let (line, rest) := splitLine it.input
    let it := { it with input := rest }
    match lineText line with
    | .ok text => (.ok (.string text), it)
    | .error f => b.fault it (.stream f)

/-- Reports two values that differ. -/
def check (it : Interpreter) (a b : Value) (message : String) : Answer :=
  if a.equal it.heap b then done it
  else
    let f := Fault.assertion message (a.text it.heap) (b.text it.heap)
    (.error f, (it.dump f.message).2)

/-! ### Drawing -/

/-- Draws with integer arguments. -/
def draw (b : Builtin) (it : Interpreter) (numbers : List Int) : Answer :=
  let video := it.video
  let drawn (video : Video.Memory) : Answer := done { it with video }
  match b, numbers with
  | .setVideoMode, [n] =>
    match Video.Mode.ofNumber? n with
    | some mode => drawn (video.setMode mode)
    | none => b.fault it (.videoMode n)
  | .setPixel, [x, y, c] => drawn (video.setPixel ⟨x, y⟩ (.ofInt c))
  | .drawLine, [x₁, y₁, x₂, y₂, c] => drawn (video.drawLine ⟨x₁, y₁⟩ ⟨x₂, y₂⟩ (.ofInt c))
  | .drawCircle, [x, y, r, c] => drawn (video.drawCircle ⟨x, y⟩ r (.ofInt c))
  | .fillCircle, [x, y, r, c] => drawn (video.fillCircle ⟨x, y⟩ r (.ofInt c))
  | _, _ => done it

/-! ### Calls -/

/-- The answer for a value that may be a fault of the builtin. -/
def lift (b : Builtin) (it : Interpreter) (r : Except BuiltinFault Value) : Answer :=
  match r with
  | .ok v => (.ok v, it)
  | .error f => b.fault it f

/-- A call with as many arguments as the builtin takes. -/
def act (b : Builtin) (it : Interpreter) (args : List Value) : Answer :=
  match b, args with
  | .print, [v] => b.write it (v.text it.heap ++ "\n")
  | .input, [v] => b.readLine it (v.text it.heap)
  | .len, [.array ref] => (.ok (.number (Float.ofNat (it.heap.array ref).size)), it)
  | .len, [.string s] => (.ok (.number (Float.ofNat s.length)), it)
  | .len, [v] => b.fault it (.length v.kind)
  | .substr, [s, start] => b.lift it (substring s start none)
  | .substr, [s, start, length] => b.lift it (substring s start (some length))
  | .replace, [s, old, new] => b.lift it (replaced s old new)
  | .keys, [.map ref] =>
    let names := (it.heap.map ref).sortedNames
    let (v, heap) := it.heap.newArray (names.map Value.string).toArray
    (.ok v, { it with heap })
  | .keys, [v] => b.fault it (.keys v.kind)
  | .random, [] =>
    let (x, generator) := it.random.next
    (.ok (.number x), { it with random := generator })
  | .debug, [v] =>
    match it.dump (v.text it.heap) with
    | (true, it) => done it
    | (false, it) => b.fault it (.stream .full)
  | .assert, [l, r] => check it l r "Incorrect value"
  | .assert, [l, r, message] =>
    match stringArg 2 message with
    | .ok message => check it l r message
    | .error f => b.fault it f
  | .clearVideo, [] => done { it with video := it.video.clear }
  | .updateVideo, [] => done { it with video := it.video.update }
  | _, args =>
    match integerArgs 0 args with
    | .ok numbers => b.draw it numbers
    | .error f => b.fault it f

def call (b : Builtin) (it : Interpreter) (args : List Value) : Answer :=
  let (least, most) := b.arity
  if args.length < least ∨ most < args.length then b.fault it (.arity least most args.length)
  else b.act it args

end Builtin

end RetroScript

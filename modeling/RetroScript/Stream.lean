import RetroScript.Fault
import RetroScript.Text.Blank
import RetroScript.Text.Utf8

/-! Where a program writes and reads: sinks of bytes, with or without a limit, and lines of input. -/
namespace RetroScript

/-- Bytes written so far. A sink with a limit keeps that many bytes and no more. -/
structure Sink where
  bytes : ByteArray := ByteArray.empty
  limit : Option Nat := none

/-- Writes a text as far as it fits, and tells whether all of it did. -/
def Sink.write (s : Sink) (text : String) : Bool × Sink :=
  let data := text.toUTF8
  match s.limit with
  | none => (true, { s with bytes := s.bytes ++ data })
  | some limit =>
    let room := limit - s.bytes.size
    if data.size ≤ room then (true, { s with bytes := s.bytes ++ data })
    else (false, { s with bytes := s.bytes ++ data.extract 0 room })

/-- What was written, as text. A limit can cut a character, which is then replaced. -/
def Sink.text (s : Sink) : String := Text.decodeLossy s.bytes

/-- The first line of some bytes, with its line feed, and the rest. -/
def splitLine (bytes : List UInt8) : List UInt8 × List UInt8 :=
  match bytes.dropWhile (· ≠ 10) with
  | [] => (bytes, [])
  | feed :: rest => (bytes.takeWhile (· ≠ 10) ++ [feed], rest)

/-- A line as text without outer blanks. -/
def lineText (line : List UInt8) : Except StreamFault String :=
  match String.fromUTF8? ⟨line.toArray⟩ with
  | some text => .ok (String.ofList (Text.trim text.toList))
  | none => .error .notUtf8

end RetroScript

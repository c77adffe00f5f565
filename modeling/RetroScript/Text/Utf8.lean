/-!
# Bytes as text

`decodeLossy` reads any bytes as UTF-8. Each longest piece that starts a character but does not
complete it, and each byte that starts none, becomes one replacement character.
-/
namespace RetroScript.Text

/-- A character of which some bytes have been read: its bits so far, the number of bytes to come, and
the range of the next byte. -/
structure Unfinished where
  bits : Nat
  missing : Nat
  low : UInt8
  high : UInt8

/-- The text so far and the character being read. -/
structure Decoder where
  text : String := ""
  pending : Option Unfinished := none

def replacement : Char := '�'

/-- What a first byte announces, none for a byte that starts no longer character. -/
def Unfinished.ofLead? (b : UInt8) : Option Unfinished :=
  if 0xC2 ≤ b ∧ b ≤ 0xDF then some ⟨b.toNat % 32, 1, 0x80, 0xBF⟩
  else if b = 0xE0 then some ⟨b.toNat % 16, 2, 0xA0, 0xBF⟩
  else if b = 0xED then some ⟨b.toNat % 16, 2, 0x80, 0x9F⟩
  else if 0xE1 ≤ b ∧ b ≤ 0xEF then some ⟨b.toNat % 16, 2, 0x80, 0xBF⟩
  else if b = 0xF0 then some ⟨b.toNat % 8, 3, 0x90, 0xBF⟩
  else if 0xF1 ≤ b ∧ b ≤ 0xF3 then some ⟨b.toNat % 8, 3, 0x80, 0xBF⟩
  else if b = 0xF4 then some ⟨b.toNat % 8, 3, 0x80, 0x8F⟩
  else none

/-- Reads a byte where a character starts. -/
def Decoder.start (d : Decoder) (b : UInt8) : Decoder :=
  if b < 0x80 then { d with text := d.text.push (Char.ofNat b.toNat) }
  else
    match Unfinished.ofLead? b with
    | some p => { d with pending := some p }
    | none => { d with text := d.text.push replacement }

def Decoder.step (d : Decoder) (b : UInt8) : Decoder :=
  match d.pending with
  | none => d.start b
  | some p =>
    if p.low ≤ b ∧ b ≤ p.high then
      let bits := p.bits * 64 + b.toNat % 64
      if p.missing = 1 then { text := d.text.push (Char.ofNat bits), pending := none }
      else { d with pending := some ⟨bits, p.missing - 1, 0x80, 0xBF⟩ }
    else Decoder.start { text := d.text.push replacement, pending := none } b

/-- The text, with a character that was broken off replaced. -/
def Decoder.finish (d : Decoder) : String :=
  if d.pending.isSome then d.text.push replacement else d.text

def decodeLossy (bytes : ByteArray) : String := (bytes.foldl Decoder.step {}).finish

end RetroScript.Text

/-!
# Random numbers

A seed is stretched into a key, and the key into a stream of blocks of sixteen words, each a cipher
of its block number. Two words make a number from zero up to one.
-/
namespace RetroScript

/-- A key and the number of random numbers drawn so far. -/
structure Generator where
  key : Vector UInt32 8
  drawn : Nat := 0

namespace Generator

def rotateLeft (x : UInt32) (n : UInt32) : UInt32 := (x <<< n) ||| (x >>> (32 - n))

def rotateRight (x : UInt32) (n : UInt32) : UInt32 := if n = 0 then x else (x >>> n) ||| (x <<< (32 - n))

/-! ### From a seed to a key -/

def stretchStep (state : UInt64) : UInt64 := state * 6364136223846793005 + 11634580027462260723

def stretchWord (state : UInt64) : UInt32 :=
  rotateRight (((state >>> 18) ^^^ state) >>> 27).toUInt32 (state >>> 59).toUInt32

/-- The state after `n` steps from a seed. -/
def stretch (seed : UInt64) : Nat → UInt64
  | 0 => seed
  | n + 1 => stretchStep (stretch seed n)

def ofSeed (seed : UInt64) : Generator where
  key := Vector.ofFn fun i : Fin 8 => stretchWord (stretch seed (i.val + 1))

/-! ### Blocks -/

abbrev Block := Vector UInt32 16

/-- Mixes four words of a block. -/
def quarterRound (s : Block) (i j k l : Fin 16) : Block :=
  let a := s[i] + s[j]
  let d := rotateLeft (s[l] ^^^ a) 16
  let c := s[k] + d
  let b := rotateLeft (s[j] ^^^ c) 12
  let a := a + b
  let d := rotateLeft (d ^^^ a) 8
  let c := c + d
  let b := rotateLeft (b ^^^ c) 7
  (((s.set i a).set j b).set k c).set l d

/-- Columns, then diagonals. -/
def doubleRound (s : Block) : Block :=
  let s := quarterRound s 0 4 8 12
  let s := quarterRound s 1 5 9 13
  let s := quarterRound s 2 6 10 14
  let s := quarterRound s 3 7 11 15
  let s := quarterRound s 0 5 10 15
  let s := quarterRound s 1 6 11 12
  let s := quarterRound s 2 7 8 13
  quarterRound s 3 4 9 14

/-- Four constant words, the key, and the block number in two words. -/
def input (key : Vector UInt32 8) (number : Nat) : Block :=
  #v[0x61707865, 0x3320646e, 0x79622d32, 0x6b206574,
    key[0], key[1], key[2], key[3], key[4], key[5], key[6], key[7],
    number.toUInt32, (number / 4294967296).toUInt32, 0, 0]

/-- The block with the given number: twelve rounds, and the input added to the result. -/
def block (key : Vector UInt32 8) (number : Nat) : Block :=
  let start := input key number
  Vector.zipWith (· + ·) (Nat.repeat doubleRound 6 start) start

/-- The random number with the given index: fifty-three bits of two words, low word first. -/
def nth (key : Vector UInt32 8) (n : Nat) : Float :=
  let words := block key (n / 8)
  let word (i : Nat) : UInt64 := (words.toArray.getD i 0).toUInt64
  let i := 2 * (n % 8)
  let bits := word i ||| (word (i + 1) <<< 32)
  (bits >>> 11).toFloat / 9007199254740992.0

/-- The next random number. -/
def next (g : Generator) : Float × Generator := (nth g.key g.drawn, { g with drawn := g.drawn + 1 })

end Generator

end RetroScript

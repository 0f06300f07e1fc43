/-!
# A stream of random words

Workloads are drawn from the ChaCha stream cipher with eight rounds, so that a seed fixes a
workload on every machine. The key is spread from the seed by a congruential generator, blocks of
sixteen words are numbered from zero, and the words are taken in order.

A number in a range is drawn by multiplying a word with the size of the range and keeping the high
half. Where the low half leaves a doubt, a second word decides whether to round up.
-/

set_option autoImplicit false

namespace BoundaryHeap

/-- The key of a stream, the number of its next block, and the words of the last block that were
not taken yet. -/
structure KeyStream where
  key : Vector UInt32 8
  nextBlock : UInt64
  pending : List UInt32

namespace KeyStream

/-! ## The key -/

/-- One step of the generator that spreads a seed. -/
def spreadStep (state : UInt64) : UInt64 :=
  state * 6364136223846793005 + 11634580027462260723

/-- `w` with its bits turned right by `count` places. -/
def turnRight (w : UInt32) (count : UInt32) : UInt32 :=
  (w >>> count) ||| (w <<< (32 - count))

/-- The word that a state of that generator gives. -/
def spreadWord (state : UInt64) : UInt32 :=
  turnRight (((state >>> 18) ^^^ state) >>> 27).toUInt32 (state >>> 59).toUInt32

/-- The first `count` words spread from a state. -/
def spread (state : UInt64) : (count : Nat) → Vector UInt32 count
  | 0 => #v[]
  | count + 1 =>
    let state := spreadStep state
    ((#v[spreadWord state] ++ spread state count).cast (Nat.add_comm 1 count))

def ofSeed (seed : UInt64) : KeyStream :=
  ⟨spread seed 8, 0, []⟩

/-! ## Blocks -/

/-- The working state of the cipher: a square of sixteen words. -/
abbrev Square := Vector UInt32 16

/-- `w` with its bits turned left by `count` places. -/
def turnLeft (w : UInt32) (count : UInt32) : UInt32 :=
  (w <<< count) ||| (w >>> (32 - count))

/-- Add one word to another, and mix the sum into a third. -/
def mix (s : Square) (sum other target : Fin 16) (count : UInt32) : Square :=
  let s := s.set sum (s[sum] + s[other])
  s.set target (turnLeft (s[target] ^^^ s[sum]) count)

/-- Mix four words of the square. -/
def quarterRound (s : Square) (a b c d : Fin 16) : Square :=
  let s := mix s a b d 16
  let s := mix s c d b 12
  let s := mix s a b d 8
  mix s c d b 7

/-- Mix the columns of the square, and then its diagonals. -/
def doubleRound (s : Square) : Square :=
  let s := quarterRound s 0 4 8 12
  let s := quarterRound s 1 5 9 13
  let s := quarterRound s 2 6 10 14
  let s := quarterRound s 3 7 11 15
  let s := quarterRound s 0 5 10 15
  let s := quarterRound s 1 6 11 12
  let s := quarterRound s 2 7 8 13
  quarterRound s 3 4 9 14

/-- The square that block `number` starts from: four fixed words, the key, the number, and a nonce
of zero. -/
def startSquare (key : Vector UInt32 8) (number : UInt64) : Square :=
  let fixed : Vector UInt32 4 := #v[0x61707865, 0x3320646E, 0x79622D32, 0x6B206574]
  let counter : Vector UInt32 4 := #v[number.toUInt32, (number >>> 32).toUInt32, 0, 0]
  fixed ++ key ++ counter

/-- The sixteen words of a block: four double rounds, and the start added again. -/
def block (key : Vector UInt32 8) (number : UInt64) : Square :=
  let start := startSquare key number
  let mixed := doubleRound (doubleRound (doubleRound (doubleRound start)))
  mixed.zipWith (· + ·) start

/-! ## Draws -/

def next32 (s : KeyStream) : UInt32 × KeyStream :=
  match s.pending with
  | w :: rest => (w, { s with pending := rest })
  | [] =>
    let words := block s.key s.nextBlock
    (words[0], ⟨s.key, s.nextBlock + 1, words.toList.tail⟩)

/-- The next two words as one number, the low word first. -/
def next64 (s : KeyStream) : UInt64 × KeyStream :=
  let (low, s) := s.next32
  let (high, s) := s.next32
  (high.toUInt64 <<< 32 ||| low.toUInt64, s)

/-- The next word of 32 or 64 bits, as a number. -/
def nextWord (s : KeyStream) (wide : Bool) : Nat × KeyStream :=
  if wide then
    let (w, s) := s.next64
    (w.toNat, s)
  else
    let (w, s) := s.next32
    (w.toNat, s)

/-- A number from `lo` up to `hi`, both included, for `lo ≤ hi < 2 ^ 64`. -/
def range (s : KeyStream) (lo hi : Nat) : Nat × KeyStream :=
  let wide := decide (UInt32.size ≤ hi)
  let modulus := if wide then UInt64.size else UInt32.size
  let size := (hi - lo + 1) % modulus
  let (x, s) := s.nextWord wide
  -- Every word is in the range.
  if size = 0 then (lo + x, s)
  else
    let high := x * size / modulus
    let low := x * size % modulus
    if modulus - size < low then
      let (y, s) := s.nextWord wide
      if modulus ≤ low + y * size / modulus then (lo + high + 1, s) else (lo + high, s)
    else (lo + high, s)

end KeyStream

end BoundaryHeap

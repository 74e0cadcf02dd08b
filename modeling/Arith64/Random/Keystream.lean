import Arith64.Random.Source

/-!
# A seeded source

A 64-bit seed grows into a key of eight words, and the key into the keystream
of ChaCha with twelve rounds. The blocks are counted up from zero and read as
one stream of 32-bit words, of which a long word takes two, the lower one first.
-/

namespace Arith64

/-! ## Rotations -/

/-- Moves the bits of a word up, and those that fall out in again at the bottom. -/
def rotateUp (w n : UInt32) : UInt32 := (w <<< n) ||| (w >>> (32 - n))

/-- Moves the bits of a word down, and those that fall out in again at the top. -/
def rotateDown (w n : UInt32) : UInt32 := (w >>> n) ||| (w <<< (32 - n))

/-! ## Blocks -/

structure Row where
  a : UInt32
  b : UInt32
  c : UInt32
  d : UInt32
  deriving DecidableEq

namespace Row

def add (x y : Row) : Row := ⟨x.a + y.a, x.b + y.b, x.c + y.c, x.d + y.d⟩

/-- The exclusive or of two rows, with every word rotated up after that. -/
def xorRotate (x y : Row) (n : UInt32) : Row :=
  ⟨rotateUp (x.a ^^^ y.a) n, rotateUp (x.b ^^^ y.b) n,
    rotateUp (x.c ^^^ y.c) n, rotateUp (x.d ^^^ y.d) n⟩

/-- The words moved one place to the front, the first one to the end. -/
def turn (x : Row) : Row := ⟨x.b, x.c, x.d, x.a⟩

def toList (x : Row) : List UInt32 := [x.a, x.b, x.c, x.d]

end Row

structure Block where
  top : Row
  upper : Row
  lower : Row
  bottom : Row
  deriving DecidableEq

namespace Block

/-- The quarter round on every column at once. -/
def mixColumns (x : Block) : Block :=
  let top := x.top.add x.upper
  let bottom := x.bottom.xorRotate top 16
  let lower := x.lower.add bottom
  let upper := x.upper.xorRotate lower 12
  let top := top.add upper
  let bottom := bottom.xorRotate top 8
  let lower := lower.add bottom
  let upper := upper.xorRotate lower 7
  ⟨top, upper, lower, bottom⟩

/-- Makes columns of the diagonals. -/
def skew (x : Block) : Block := ⟨x.top, x.upper.turn, x.lower.turn.turn, x.bottom.turn.turn.turn⟩

/-- Makes diagonals of the columns again. -/
def unskew (x : Block) : Block := ⟨x.top, x.upper.turn.turn.turn, x.lower.turn.turn, x.bottom.turn⟩

/-- A round on the columns and a round on the diagonals. -/
def doubleRound (x : Block) : Block := x.mixColumns.skew.mixColumns.unskew

def add (x y : Block) : Block :=
  ⟨x.top.add y.top, x.upper.add y.upper, x.lower.add y.lower, x.bottom.add y.bottom⟩

/-- Twelve rounds, and the block they started from added to their result. -/
def scramble (x : Block) : Block := (Nat.repeat doubleRound 6 x).add x

def toList (x : Block) : List UInt32 :=
  x.top.toList ++ x.upper.toList ++ x.lower.toList ++ x.bottom.toList

theorem unskew_skew (x : Block) : x.skew.unskew = x := rfl

end Block

/-! ## Keys -/

/-- The eight words that make one stream differ from another. -/
structure Key where
  upper : Row
  lower : Row
  deriving DecidableEq

/-- One step of the generator that a seed grows by. -/
def growSeed (state : UInt64) : UInt64 := state * 6364136223846793005 + 11634580027462260723

/-- The word that a state of that generator shows. -/
def seedWord (state : UInt64) : UInt32 :=
  rotateDown (((state >>> 18) ^^^ state) >>> 27).toUInt32 (state >>> 59).toUInt32

/-- Four key words, and the state behind them. -/
def growRow (state : UInt64) : Row × UInt64 :=
  let a := growSeed state
  let b := growSeed a
  let c := growSeed b
  let d := growSeed c
  (⟨seedWord a, seedWord b, seedWord c, seedWord d⟩, d)

/-- The key that a seed stands for. -/
def Key.ofSeed (seed : UInt64) : Key :=
  let (upper, state) := growRow seed
  let (lower, _) := growRow state
  ⟨upper, lower⟩

/-- The block of a key with a number, before it is scrambled. -/
def Key.block (key : Key) (number : UInt64) : Block where
  top := ⟨0x61707865, 0x3320646e, 0x79622d32, 0x6b206574⟩
  upper := key.upper
  lower := key.lower
  bottom := ⟨number.toUInt32, (number >>> 32).toUInt32, 0, 0⟩

/-! ## The stream -/

/-- A place in a keystream: the words of the current block that are left, and the next block. -/
structure Keystream where
  key : Key
  pending : List UInt32
  nextBlock : UInt64

namespace Keystream

def ofSeed (seed : UInt64) : Keystream := ⟨Key.ofSeed seed, [], 0⟩

/-- The next word of the stream. A new block is made when the current one is used up. -/
def next32 (s : Keystream) : UInt32 × Keystream :=
  match s.pending with
  | word :: pending => (word, { s with pending })
  | [] =>
    let words := (s.key.block s.nextBlock).scramble.toList
    (words.headD 0, ⟨s.key, words.tail, s.nextBlock + 1⟩)

/-- The next two words of the stream as one, the first of them in the lower half. -/
def next64 (s : Keystream) : UInt64 × Keystream :=
  let (low, s) := s.next32
  let (high, s) := s.next32
  ((high.toUInt64 <<< 32) ||| low.toUInt64, s)

instance : RandomSource Keystream where
  next64 := next64
  next32 := next32

end Keystream

end Arith64

/-
  SimplicialNash.Random.ChaCha
  ────────────────────────────
  A stream of random words from a seed.

  The words are the output of the ChaCha stream cipher with twelve rounds, a
  64-bit block counter from zero on and an all-zero nonce.  The eight words of
  the key are drawn from the seed by a linear congruential generator whose
  output is permuted by a shift and a rotation.
-/

namespace SimplicialNash.Random

/-- A stream of 32-bit words. -/
abbrev WordStream := Nat → UInt32

/-- The words of a list, over and over; zeros if there are none. -/
def WordStream.cyclic (words : Array UInt32) : WordStream :=
  fun i => words.getD (i % words.size) 0

namespace ChaCha

/-! ## §1. Blocks -/

/-- The state of the cipher. -/
abbrev State := Vector UInt32 16

/-- A word rotated to the left. -/
def rotateLeft (x : UInt32) (k : UInt32) : UInt32 := (x <<< k) ||| (x >>> (32 - k))

/-- The quarter round on four words of the state. -/
def quarterRound (s : State) (a b c d : Fin 16) : State :=
  let s := s.set a (s.get a + s.get b)
  let s := s.set d (rotateLeft (s.get d ^^^ s.get a) 16)
  let s := s.set c (s.get c + s.get d)
  let s := s.set b (rotateLeft (s.get b ^^^ s.get c) 12)
  let s := s.set a (s.get a + s.get b)
  let s := s.set d (rotateLeft (s.get d ^^^ s.get a) 8)
  let s := s.set c (s.get c + s.get d)
  s.set b (rotateLeft (s.get b ^^^ s.get c) 7)

/-- A round on the columns and a round on the diagonals. -/
def doubleRound (s : State) : State :=
  let s := quarterRound s 0 4 8 12
  let s := quarterRound s 1 5 9 13
  let s := quarterRound s 2 6 10 14
  let s := quarterRound s 3 7 11 15
  let s := quarterRound s 0 5 10 15
  let s := quarterRound s 1 6 11 12
  let s := quarterRound s 2 7 8 13
  quarterRound s 3 4 9 14

/-- The key of the cipher. -/
abbrev Key := Vector UInt32 8

/-- The state before the first round: four constants, the key, the number of
the block and the nonce. -/
def initial (key : Key) (block : Nat) : State :=
  let counter := UInt64.ofNat block
  #v[0x61707865, 0x3320646e, 0x79622d32, 0x6b206574,
    key[0], key[1], key[2], key[3], key[4], key[5], key[6], key[7],
    counter.toUInt32, (counter >>> 32).toUInt32, 0, 0]

/-- The words of a block: the sum of the states before and after twelve rounds. -/
def block (key : Key) (number : Nat) : State :=
  let start := initial key number
  Vector.zipWith (· + ·) start ((List.range 6).foldl (fun s _ => doubleRound s) start)

/-! ## §2. Keys from seeds -/

/-- The next state of the key generator. -/
def advanceSeed (s : UInt64) : UInt64 := s * 6364136223846793005 + 11634580027462260723

/-- The key word that a state of the generator gives. -/
def keyWord (s : UInt64) : UInt32 :=
  let x := (((s >>> 18) ^^^ s) >>> 27).toUInt32
  let r := (s >>> 59).toUInt32
  (x >>> r) ||| (x <<< ((32 - r) &&& 31))

/-- The state of the key generator after a number of steps from the seed. -/
def seedAfter (seed : UInt64) : Nat → UInt64
  | 0 => seed
  | n + 1 => advanceSeed (seedAfter seed n)

/-- The key of a seed. -/
def key (seed : UInt64) : Key := Vector.ofFn fun i => keyWord (seedAfter seed (i.val + 1))

end ChaCha

/-- The words that a seed gives. -/
def WordStream.ofSeed (seed : UInt64) : WordStream :=
  let key := ChaCha.key seed
  fun i => (ChaCha.block key (i / 16)).get ⟨i % 16, Nat.mod_lt i (by decide)⟩

end SimplicialNash.Random

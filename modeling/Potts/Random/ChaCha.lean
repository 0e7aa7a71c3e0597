import Potts.Random.Source

/-!
# The ChaCha stream

The seeded stream of random numbers: the key stream of the ChaCha cipher with twelve rounds, read as
32-bit words. A seed is stretched to the key by a linear congruential sequence. `scaled_lt` says
that a bounded draw, scaled from one word and corrected by a second, keeps to its bound.
-/

namespace Potts

/-! ## The block function -/

namespace ChaCha

/-- The sixteen words that the block function works on. -/
abbrev Block := Vector UInt32 16

def rotateLeft (x amount : UInt32) : UInt32 := x <<< amount ||| x >>> (32 - amount)

/-- The quarter round on four places of a block. -/
def quarterRound (a b c d : Fin 16) (s : Block) : Block :=
  let s := s.set a (s[a] + s[b])
  let s := s.set d (rotateLeft (s[d] ^^^ s[a]) 16)
  let s := s.set c (s[c] + s[d])
  let s := s.set b (rotateLeft (s[b] ^^^ s[c]) 12)
  let s := s.set a (s[a] + s[b])
  let s := s.set d (rotateLeft (s[d] ^^^ s[a]) 8)
  let s := s.set c (s[c] + s[d])
  s.set b (rotateLeft (s[b] ^^^ s[c]) 7)

/-- One round over the columns and one over the diagonals. -/
def doubleRound (s : Block) : Block :=
  let s := quarterRound 0 4 8 12 s
  let s := quarterRound 1 5 9 13 s
  let s := quarterRound 2 6 10 14 s
  let s := quarterRound 3 7 11 15 s
  let s := quarterRound 0 5 10 15 s
  let s := quarterRound 1 6 11 12 s
  let s := quarterRound 2 7 8 13 s
  quarterRound 3 4 9 14 s

/-- The block that a key and a block number start from. -/
def start (key : Vector UInt32 8) (counter : UInt64) : Block :=
  #v[0x61707865, 0x3320646e, 0x79622d32, 0x6b206574,
    key[0], key[1], key[2], key[3], key[4], key[5], key[6], key[7],
    counter.toUInt32, (counter >>> 32).toUInt32, 0, 0]

/-- The key stream block of a key and a block number: six double rounds, added to their start. -/
def block (key : Vector UInt32 8) (counter : UInt64) : Block :=
  let first := start key counter
  (Nat.repeat doubleRound 6 first).zipWith (· + ·) first

/-! ## Keys from seeds -/

/-- The next state of the sequence that stretches a seed. -/
def stretch (s : UInt64) : UInt64 := s * 6364136223846793005 + 11634580027462260723

/-- The key word of a state: some of its upper bits, rotated by an amount that its top bits name. -/
def keyWord (s : UInt64) : UInt32 :=
  let x := (((s >>> 18) ^^^ s) >>> 27).toUInt32
  let amount := (s >>> 59).toUInt32
  x >>> amount ||| x <<< ((32 - amount) % 32)

/-- The eight key words of a seed. -/
def keyOfSeed (seed : UInt64) : Vector UInt32 8 :=
  Vector.ofFn fun i => keyWord (Nat.repeat stretch (i + 1) seed)

end ChaCha

/-! ## The stream -/

/-- A place in the key stream of a key. -/
structure ChaCha where
  key : Vector UInt32 8
  /-- The number of the next block. -/
  counter : UInt64
  /-- The unread words of the block before it. -/
  pending : List UInt32

namespace ChaCha

/-- The beginning of the stream of a seed. -/
def ofSeed (seed : UInt64) : ChaCha := ⟨keyOfSeed seed, 0, []⟩

/-- How many 32-bit words have been read. -/
def position (s : ChaCha) : Nat := 16 * s.counter.toNat - s.pending.length

def next (s : ChaCha) : UInt32 × ChaCha :=
  match s.pending with
  | w :: rest => (w, { s with pending := rest })
  | [] =>
    let words := block s.key s.counter
    (words[0], ⟨s.key, s.counter + 1, words.toList.tail⟩)

/-- The next 64-bit word: two words of the stream, the lower half first. -/
def word (s : ChaCha) : UInt64 × ChaCha :=
  let (low, s) := s.next
  let (high, s) := s.next
  (low.toUInt64 ||| high.toUInt64 <<< 32, s)

/-- Whether the fraction left over from scaling a word `w` to `n` is large enough for a second word
to matter. -/
def needsCarry (n w : Nat) : Bool := UInt32.size - n < w * n % UInt32.size

/-- Scale a word `w` to a number below `n`, with a carry out of the fraction that a second word `y`
adds to it. -/
def scaled (n w y : Nat) : Nat :=
  let whole := w * n / UInt32.size
  let fraction := w * n % UInt32.size
  if needsCarry n w = true ∧ UInt32.size ≤ fraction + y * n / UInt32.size then whole + 1 else whole

theorem scaled_lt {n w : Nat} (hn : 0 < n) (hw : w < UInt32.size) (y : Nat) :
    scaled n w y < n := by
  have hle : w * n ≤ 4294967295 * n := Nat.mul_le_mul_right n (Nat.le_of_lt_succ hw)
  simp only [scaled, needsCarry, UInt32.size, decide_eq_true_iff] at hw ⊢
  split <;> omega

/-- A number below `n`, scaled from the next word and, where its fraction leaves a doubt, from the
one after it. -/
def below (s : ChaCha) (n : Nat) : Nat × ChaCha :=
  let (w, s) := s.next
  if needsCarry n w.toNat then
    let (y, s) := s.next
    (scaled n w.toNat y.toNat, s)
  else (scaled n w.toNat 0, s)

theorem below_lt (s : ChaCha) {n : Nat} (hn : 0 < n) : (s.below n).1 < n := by
  unfold below
  split
  split
  · exact scaled_lt hn (UInt32.toNat_lt _) _
  · exact scaled_lt hn (UInt32.toNat_lt _) _

instance : SeededSource ChaCha where
  word := word
  below := below
  below_lt := below_lt
  ofSeed := ofSeed

end ChaCha

end Potts

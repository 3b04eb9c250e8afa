import FactorMachine.Random.Source

/-!
# FactorMachine — the seeded generator

A stream of 32-bit words from the ChaCha block function with twelve rounds: the key is
filled from the seed, the block counter has 64 bits and starts at zero, and the nonce is
zero. Two consecutive words make a number of 64 bits, the first one being the low half, and
likewise for wider numbers.

A number below a bound is the high half of a product: a random number of `width` bits times
the bound. Products whose low half is above the largest multiple of the bound are rejected,
so that every number below the bound is as likely as any other.
-/

namespace FactorMachine

/-- The sixteen words that the block function works on. -/
abbrev ChaChaBlock := Vector UInt32 16

namespace ChaCha

def rotateLeft (x k : UInt32) : UInt32 := x <<< k ||| x >>> (32 - k)

/-- One quarter of a round, on the words at four places. -/
def quarterRound (a b c d : Fin 16) (x : ChaChaBlock) : ChaChaBlock :=
  let x := x.set a (x[a] + x[b])
  let x := x.set d (rotateLeft (x[d] ^^^ x[a]) 16)
  let x := x.set c (x[c] + x[d])
  let x := x.set b (rotateLeft (x[b] ^^^ x[c]) 12)
  let x := x.set a (x[a] + x[b])
  let x := x.set d (rotateLeft (x[d] ^^^ x[a]) 8)
  let x := x.set c (x[c] + x[d])
  x.set b (rotateLeft (x[b] ^^^ x[c]) 7)

/-- A round on the columns and one on the diagonals. -/
def doubleRound (x : ChaChaBlock) : ChaChaBlock :=
  let x := quarterRound 0 4 8 12 x
  let x := quarterRound 1 5 9 13 x
  let x := quarterRound 2 6 10 14 x
  let x := quarterRound 3 7 11 15 x
  let x := quarterRound 0 5 10 15 x
  let x := quarterRound 1 6 11 12 x
  let x := quarterRound 2 7 8 13 x
  quarterRound 3 4 9 14 x

/-- Twelve rounds. -/
def rounds (x : ChaChaBlock) : ChaChaBlock := Nat.repeat doubleRound 6 x

/-- The block before the rounds. -/
def inputBlock (key : Vector UInt32 8) (counter : UInt64) : ChaChaBlock :=
  #v[0x61707865, 0x3320646e, 0x79622d32, 0x6b206574,
    key[0], key[1], key[2], key[3], key[4], key[5], key[6], key[7],
    counter.toUInt32, (counter >>> 32).toUInt32, 0, 0]

/-- The words of the stream that one value of the counter gives. -/
def block (key : Vector UInt32 8) (counter : UInt64) : List UInt32 :=
  let x := inputBlock key counter
  ((rounds x).zipWith (· + ·) x).toList

end ChaCha

/-- A place in the stream of words: those of the current block that are still to come, and
the counter of the block after it. -/
structure ChaCha where
  key : Vector UInt32 8
  counter : UInt64
  pending : List UInt32
  deriving Repr

namespace ChaCha

/-- One step of the key filling: the next state and the word it gives. -/
def seedStep (s : UInt64) : UInt64 × UInt32 :=
  let s := s * 6364136223846793005 + 11634580027462260723
  let x := (((s >>> 18) ^^^ s) >>> 27).toUInt32
  let k := (s >>> 59).toUInt32
  (s, x >>> k ||| x <<< ((32 - k) % 32))

/-- The words of the key that a seed gives. -/
def seedWords : Nat → UInt64 → List UInt32
  | 0, _ => []
  | n + 1, s =>
    let (s, w) := seedStep s
    w :: seedWords n s

/-- The stream of a seed. -/
def ofSeed (seed : Nat) : ChaCha :=
  let words := seedWords 8 (UInt64.ofNat seed)
  ⟨Vector.ofFn fun i => words.getD i 0, 0, []⟩

/-- The next word of the stream. -/
def nextWord (g : ChaCha) : UInt32 × ChaCha :=
  match g.pending with
  | w :: rest => (w, { g with pending := rest })
  | [] =>
    match block g.key g.counter with
    | w :: rest => (w, { g with counter := g.counter + 1, pending := rest })
    | [] => (0, g)

/-- The next `n` words of the stream as one number, the first word lowest. -/
def nextWords : Nat → ChaCha → Nat × ChaCha
  | 0, g => (0, g)
  | n + 1, g =>
    let (low, g) := g.nextWord
    let (high, g) := nextWords n g
    (low.toNat + UInt32.size * high, g)

/-- The last low half of a product that is accepted for a bound. -/
def acceptanceZone (width bound : Nat) : Nat :=
  bound * Nat.pow 2 (width - 1 - bound.log2) - 1

/-- Tries numbers of `width` bits until one is accepted. At least every other one is, so the
counter, which bounds the number of rejections, does not run out in practice. -/
def drawWith (width bound : Nat) : (counter : Nat) → ChaCha → Nat × ChaCha
  | 0, g =>
    let (v, g) := g.nextWords (width / 32)
    (v * bound / Nat.pow 2 (width / 32 * 32), g)
  | counter + 1, g =>
    let (v, g') := g.nextWords (width / 32)
    if v * bound % Nat.pow 2 width ≤ acceptanceZone width bound then
      (v * bound / Nat.pow 2 (width / 32 * 32), g')
    else drawWith width bound counter g'

theorem nextWords_lt (n : Nat) (g : ChaCha) : (g.nextWords n).1 < Nat.pow 2 (n * 32) := by
  induction n generalizing g with
  | zero => simp [nextWords]
  | succ n ih =>
    have low := (g.nextWord).1.toNat_lt
    have high := ih (g.nextWord).2
    have split : Nat.pow 2 ((n + 1) * 32) = UInt32.size * Nat.pow 2 (n * 32) := by
      rw [Nat.succ_mul, Nat.pow_eq, Nat.pow_eq, Nat.pow_add, Nat.mul_comm]
    simp only [nextWords, UInt32.size] at *
    omega

theorem mul_div_lt {v bound modulus : Nat} (hv : v < modulus) (hb : 0 < bound) :
    v * bound / modulus < bound := by
  apply Nat.div_lt_of_lt_mul
  exact Nat.mul_lt_mul_of_pos_right hv hb

theorem drawWith_lt (width bound counter : Nat) (g : ChaCha) (h : 0 < bound) :
    (drawWith width bound counter g).1 < bound := by
  induction counter generalizing g with
  | zero => exact mul_div_lt (nextWords_lt _ g) h
  | succ counter ih =>
    simp only [drawWith]
    split
    · exact mul_div_lt (nextWords_lt _ g) h
    · exact ih _

instance : RandomSource ChaCha where
  draw width bound g := drawWith width bound 1000 g
  draw_lt width bound g h := drawWith_lt width bound 1000 g h

end ChaCha

end FactorMachine

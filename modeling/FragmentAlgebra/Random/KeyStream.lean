import FragmentAlgebra.Random.Source

/-! # Key streams

A `KeyStream` is the ChaCha key stream with twelve rounds: blocks of sixteen 32-bit words, numbered
by a 64-bit counter. `ofSeed` stretches a 64-bit seed into the key. The words are used strictly in
order, and a 64-bit word is made of two of them, the low half first.
-/

namespace FragmentAlgebra

namespace KeyStream

/-! ## Blocks -/

/-- Sixteen words, as a four by four table. -/
abbrev Block := Vector UInt32 16

def rotateLeft (x amount : UInt32) : UInt32 := x <<< amount ||| x >>> (32 - amount)

/-- Mix four words of a block. -/
def quarterRound (v : Block) (a b c d : Fin 16) : Block :=
  let v := v.set a (v[a] + v[b])
  let v := v.set d (rotateLeft (v[d] ^^^ v[a]) 16)
  let v := v.set c (v[c] + v[d])
  let v := v.set b (rotateLeft (v[b] ^^^ v[c]) 12)
  let v := v.set a (v[a] + v[b])
  let v := v.set d (rotateLeft (v[d] ^^^ v[a]) 8)
  let v := v.set c (v[c] + v[d])
  v.set b (rotateLeft (v[b] ^^^ v[c]) 7)

/-- Mix the columns, then the diagonals. -/
def doubleRound (v : Block) : Block :=
  let v := quarterRound v 0 4 8 12
  let v := quarterRound v 1 5 9 13
  let v := quarterRound v 2 6 10 14
  let v := quarterRound v 3 7 11 15
  let v := quarterRound v 0 5 10 15
  let v := quarterRound v 1 6 11 12
  let v := quarterRound v 2 7 8 13
  quarterRound v 3 4 9 14

def mix (v : Block) : Block := Nat.repeat doubleRound 6 v

/-- The block before mixing: constants, key, counter and a zero nonce. -/
def initialBlock (key : Vector UInt32 8) (counter : UInt64) : Block :=
  #v[0x61707865, 0x3320646e, 0x79622d32, 0x6b206574,
    key[0], key[1], key[2], key[3], key[4], key[5], key[6], key[7],
    counter.toUInt32, (counter >>> 32).toUInt32, 0, 0]

/-- The mixed block, added to the block before mixing. -/
def block (key : Vector UInt32 8) (counter : UInt64) : Block :=
  let start := initialBlock key counter
  Vector.zipWith (· + ·) (mix start) start

/-! ## Keys -/

/-- The next state of the generator that stretches a seed. -/
def seedStep (s : UInt64) : UInt64 := s * 6364136223846793005 + 11634580027462260723

/-- The word of such a state. -/
def seedWord (s : UInt64) : UInt32 :=
  let x := (((s >>> 18) ^^^ s) >>> 27).toUInt32
  let turn := (s >>> 59).toUInt32
  x >>> turn ||| x <<< ((32 - turn) % 32)

def seedWords : Nat → UInt64 → List UInt32
  | 0, _ => []
  | n + 1, s => seedWord (seedStep s) :: seedWords n (seedStep s)

def keyOfSeed (seed : UInt64) : Vector UInt32 8 :=
  Vector.ofFn fun i => (seedWords 8 seed).getD i 0

end KeyStream

/-- A key, the number of the next block, and the words left of the last one. -/
structure KeyStream where
  key : Vector UInt32 8
  counter : UInt64
  left : List UInt32

namespace KeyStream

/-- The stream of a seed, from its first word on. -/
def ofSeed (seed : UInt64) : KeyStream := ⟨keyOfSeed seed, 0, []⟩

/-- The next word. A new block is made when the last one is used up. -/
def next (stream : KeyStream) : UInt32 × KeyStream :=
  match stream.left with
  | word :: left => (word, { stream with left })
  | [] =>
    let words := block stream.key stream.counter
    (words[0], { stream with counter := stream.counter + 1, left := words.toList.drop 1 })

instance : RandomSource KeyStream where
  word stream :=
    let (low, stream) := stream.next
    let (high, stream) := stream.next
    (low.toUInt64 ||| high.toUInt64 <<< 32, stream)
  halfWord stream := stream.next

end KeyStream

end FragmentAlgebra

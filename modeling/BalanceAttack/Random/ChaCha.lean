import BalanceAttack.Random.Supply

/-!
# BalanceAttack.Random.ChaCha

The ChaCha generator with twelve rounds.  Word `i` of the sequence is word
`i % 8` of the key stream block `i / 8`, so the generator is a key, a block
number and a place in that block; the block itself is kept beside them, since
it serves eight draws.
-/

namespace BalanceAttack.Random

/-- A generator of the words of a ChaCha key stream. -/
structure ChaCha where
  key : Vector UInt32 8
  block : UInt64
  words : Vector UInt64 8
  place : Fin 8

namespace ChaCha

/-- Rotates a 32-bit word to the left. -/
def rotateLeft (x k : UInt32) : UInt32 := (x <<< k) ||| (x >>> (32 - k))

/-- Mixes four words of a block. -/
def quarterRound (v : Vector UInt32 16) (a b c d : Fin 16) : Vector UInt32 16 :=
  let v := v.set a (v[a] + v[b])
  let v := v.set d (rotateLeft (v[d] ^^^ v[a]) 16)
  let v := v.set c (v[c] + v[d])
  let v := v.set b (rotateLeft (v[b] ^^^ v[c]) 12)
  let v := v.set a (v[a] + v[b])
  let v := v.set d (rotateLeft (v[d] ^^^ v[a]) 8)
  let v := v.set c (v[c] + v[d])
  v.set b (rotateLeft (v[b] ^^^ v[c]) 7)

/-- One round over the columns of a block and one over its diagonals. -/
def doubleRound (v : Vector UInt32 16) : Vector UInt32 16 :=
  let v := quarterRound v 0 4 8 12
  let v := quarterRound v 1 5 9 13
  let v := quarterRound v 2 6 10 14
  let v := quarterRound v 3 7 11 15
  let v := quarterRound v 0 5 10 15
  let v := quarterRound v 1 6 11 12
  let v := quarterRound v 2 7 8 13
  quarterRound v 3 4 9 14

/-- A block before mixing: four constants, the key, the block number and zeros. -/
def layout (key : Vector UInt32 8) (block : UInt64) : Vector UInt32 16 :=
  let constants : Vector UInt32 4 := #v[0x61707865, 0x3320646e, 0x79622d32, 0x6b206574]
  let position : Vector UInt32 4 := #v[block.toUInt32, (block >>> 32).toUInt32, 0, 0]
  constants ++ key ++ position

/-- The words of a block of the key stream. -/
def keyStream (key : Vector UInt32 8) (block : UInt64) : Vector UInt64 8 :=
  let plain := layout key block
  let mixed := Nat.repeat doubleRound 6 plain
  let words := Vector.zipWith (· + ·) mixed plain
  Vector.ofFn fun k : Fin 8 =>
    words[2 * k.val].toUInt64 ||| (words[2 * k.val + 1].toUInt64 <<< 32)

/-- The generator at the start of a key's stream. -/
def ofKey (key : Vector UInt32 8) : ChaCha :=
  { key, block := 0, words := keyStream key 0, place := 0 }

/-- The next word of the key stream. -/
def next (g : ChaCha) : UInt64 × ChaCha :=
  let w := g.words[g.place]
  if g.place = 7 then
    let block := g.block + 1
    (w, { g with block, words := keyStream g.key block, place := 0 })
  else
    (w, { g with place := g.place + 1 })

instance : WordSource ChaCha := ⟨next⟩

/-! ## keys from seeds -/

/-- The word that a step of the seeding counter yields: its high bits,
rotated by its highest ones. -/
def seedWord (state : UInt64) : UInt32 :=
  let x := ((((state >>> 18) ^^^ state) >>> 27)).toUInt32
  let turn := (state >>> 59).toUInt32
  (x >>> turn) ||| (x <<< ((32 - turn) &&& 31))

/-- The counter that spreads a seed over a key moves by a linear step. -/
def seedStep (state : UInt64) : UInt64 :=
  state * 6364136223846793005 + 11634580027462260723

/-- The generator that a seed of 64 bits stands for. -/
def ofSeed (seed : UInt64) : ChaCha :=
  ofKey (Vector.ofFn fun i : Fin 8 => seedWord (Nat.repeat seedStep (i + 1) seed))

end ChaCha

end BalanceAttack.Random

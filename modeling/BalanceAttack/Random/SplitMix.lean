import BalanceAttack.Random.Supply

/-!
# BalanceAttack.Random.SplitMix

The SplitMix generator: a counter that moves by a fixed odd step, and a
mixing of the counter into each word.
-/

namespace BalanceAttack.Random

/-- A SplitMix generator. -/
structure SplitMix where
  state : UInt64

namespace SplitMix

/-- Spreads the bits of a counter over a word. -/
def mix (z : UInt64) : UInt64 :=
  let z := (z ^^^ (z >>> 30)) * 0xbf58476d1ce4e5b9
  let z := (z ^^^ (z >>> 27)) * 0x94d049bb133111eb
  z ^^^ (z >>> 31)

/-- Moves the counter one step and mixes it into a word. -/
def next (g : SplitMix) : UInt64 × SplitMix :=
  let state := g.state + 0x9e3779b97f4a7c15
  (mix state, { state })

instance : WordSource SplitMix := ⟨next⟩

end SplitMix

/-- Given words, and a generator for those after them. -/
structure Spliced where
  words : List UInt64
  rest : SplitMix

namespace Spliced

/-- The next given word, or the next of the generator when none is left. -/
def next (g : Spliced) : UInt64 × Spliced :=
  match g.words with
  | w :: words => (w, { g with words })
  | [] =>
    let (w, rest) := g.rest.next
    (w, { g with rest })

instance : WordSource Spliced := ⟨next⟩

end Spliced

end BalanceAttack.Random

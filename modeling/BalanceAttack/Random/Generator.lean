import BalanceAttack.Random.ChaCha
import BalanceAttack.Random.SplitMix

/-!
# BalanceAttack.Random.Generator

A generator whose kind is chosen while the program runs.
-/

namespace BalanceAttack.Random

/-- A generator of one of the kinds there are. -/
inductive Generator where
  | chaCha (g : ChaCha)
  | splitMix (g : SplitMix)
  | spliced (g : Spliced)

namespace Generator

/-- The next word, by the rule of the generator's kind. -/
def next : Generator → UInt64 × Generator
  | chaCha g => let (w, g) := g.next; (w, .chaCha g)
  | splitMix g => let (w, g) := g.next; (w, .splitMix g)
  | spliced g => let (w, g) := g.next; (w, .spliced g)

instance : WordSource Generator := ⟨next⟩

end Generator

end BalanceAttack.Random

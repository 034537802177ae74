import BalanceAttack.Random.Supply

/-!
# BalanceAttack.Random.Uniform

Uniform draws: an index below a bound, a float of the unit interval, and a
float between two bounds.

An index comes from the high half of the product of a word and the bound.  To
make all indices equally likely, a word whose low half lies beyond the largest
multiple of the bound is drawn again.
-/

namespace BalanceAttack.Random

/-- The largest low half of a product that is accepted for a bound. -/
def acceptZone (n : Nat) : Nat := n * Nat.pow 2 (63 - n.log2) - 1

/-- The index below `n` that a word stands for, if it is accepted. -/
def indexOfWord (n : Nat) (w : UInt64) : Option Nat :=
  if w.toNat * n % Nat.pow 2 64 ≤ acceptZone n then some (w.toNat * n / Nat.pow 2 64) else none

theorem indexOfWord_lt {n i : Nat} {w : UInt64} (hn : 0 < n) (h : indexOfWord n w = some i) :
    i < n := by
  unfold indexOfWord at h
  split at h
  · obtain rfl := Option.some.inj h
    rw [Nat.div_lt_iff_lt_mul (by decide), Nat.mul_comm n]
    exact Nat.mul_lt_mul_of_pos_right w.toNat_lt hn
  · simp at h

/-- The float of the unit interval that the high 53 bits of a word stand for. -/
def unitOfWord (w : UInt64) : Float := (w >>> 11).toFloat * Float.ofBits 0x3ca0000000000000

/-- The float of the unit interval that the high 52 bits of a word stand for. -/
def fractionOfWord (w : UInt64) : Float := (w >>> 12).toFloat * Float.ofBits 0x3cb0000000000000

/-- The largest value of `fractionOfWord`, one less an ulp. -/
def lastFraction : Float := Float.ofBits 0x3feffffffffffffe

/-- The largest of the floats with bits up to the given ones whose multiple by
`lastFraction`, from `lo` on, does not pass `hi`. -/
def fitScale (lo hi : Float) : Nat → Float
  | 0 => 0
  | bits + 1 =>
    let scale := Float.ofBits (UInt64.ofNat (bits + 1))
    if scale * lastFraction + lo > hi then fitScale lo hi bits else scale

namespace Draw

variable {σ : Type} [WordSource σ]

/-- Draws an index below `n`, all equally likely. -/
def index (n : Nat) : Draw σ Nat :=
  if n = 0 then throw .emptyRange
  else settle (fun () => do return (indexOfWord n (← word)).elim (.inl ()) .inr) ()

/-- Draws a float of the interval from `0` to `1`, without `1`. -/
def unit : Draw σ Float := return unitOfWord (← word)

/-- Draws a float between two bounds, both included. -/
def between (lo hi : Float) : Draw σ Float := do
  if lo ≤ hi then
    let scale := fitScale lo hi ((hi - lo) / lastFraction).toBits.toNat
    return fractionOfWord (← word) * scale + lo
  else
    throw .emptyRange

end Draw

end BalanceAttack.Random

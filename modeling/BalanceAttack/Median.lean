/-!
# BalanceAttack.Median

The total order of floats and the median under it.  The order is that of the
signed integers that the bits stand for, once those of negative floats are
turned round: `-0` comes before `0`, and what is not a number comes before or
after everything else, as its sign says.  Floats are therefore sorted by their
bits, as they no longer tell one NaN from another once they are numbers.
-/

namespace BalanceAttack

/-- The place in the total order of the float that some bits stand for. -/
def orderKey (bits : UInt64) : Int :=
  if bits.toNat < Nat.pow 2 63 then bits.toNat else Int.pow 2 63 - 1 - (bits.toNat : Int)

/-- Does a float come no later than another in the total order? -/
def notAfter (x y : UInt64) : Bool := orderKey x ≤ orderKey y

/-- The middle one of the floats in order, or the mean of the two middle ones. -/
def medianOfBits (values : List UInt64) : Float :=
  let sorted := (values.mergeSort notAfter).map Float.ofBits
  let middle := sorted.length / 2
  let upper := sorted.getD middle (0 / 0)
  if sorted.length % 2 = 0 then (sorted.getD (middle - 1) (0 / 0) + upper) / 2 else upper

/-- The median of some numbers. -/
def median (values : List Float) : Float := medianOfBits (values.map Float.toBits)

/-! ## the order is total -/

theorem notAfter_total (x y : UInt64) : notAfter x y = true ∨ notAfter y x = true := by
  simp only [notAfter, decide_eq_true_eq]
  omega

theorem notAfter_trans {x y z : UInt64} (h : notAfter x y = true) (h' : notAfter y z = true) :
    notAfter x z = true := by
  simp only [notAfter, decide_eq_true_eq] at *
  omega

end BalanceAttack

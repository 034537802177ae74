/-!
# BalanceAttack.Decimal.Binary

The exact value of a finite float, read off its bits: a natural number times a
power of two, and a sign.
-/

namespace BalanceAttack.Decimal

/-- The number `mantissa · 2 ^ exponent`. -/
structure Binary where
  mantissa : Nat
  exponent : Int
  deriving DecidableEq, Repr

namespace Binary

/-- The mantissa at which the exponent grows, and below which floats lie twice as dense. -/
def smallestNormal : Nat := Nat.pow 2 52

/-- The absolute value of a finite float.  A float without the leading bit has
the exponent of the smallest one with it. -/
def ofFloat (x : Float) : Binary :=
  let bits := x.toBits.toNat
  let field : Nat := bits / Nat.pow 2 52 % Nat.pow 2 11
  let fraction : Nat := bits % Nat.pow 2 52
  if field = 0 then ⟨fraction, -1074⟩ else ⟨smallestNormal + fraction, (field : Int) - 1075⟩

end Binary

/-- The sign bit of a float, which also tells the two zeros apart. -/
def isNegative (x : Float) : Bool := Nat.pow 2 63 ≤ x.toBits.toNat

/-! ## some values -/

example : Binary.ofFloat 1 = ⟨Binary.smallestNormal, -52⟩ := by decide +kernel

example : Binary.ofFloat (Float.ofBits 1) = ⟨1, -1074⟩ := by decide +kernel

end BalanceAttack.Decimal

/-!
# BalanceAttack.Whole

Whole numbers of 64 bits in their other guises.  As a float such a number is
rounded to nearest, ties to even; coming back drops the fraction and holds
what is too large at the ends of the signed range.  A count read as a signed
number wraps around.
-/

namespace BalanceAttack.Whole

/-- The float nearest to an integer of at most 64 bits. -/
def toFloat (x : Int) : Float :=
  if x < 0 then -(UInt64.ofNat x.natAbs).toFloat else (UInt64.ofNat x.natAbs).toFloat

/-- A float without its fraction; beyond 64 signed bits the nearest bound, and `0` for NaN. -/
def ofFloat (x : Float) : Int :=
  if x < 0 then -(min (-x).toUInt64.toNat (Nat.pow 2 63) : Nat)
  else (min x.toUInt64.toNat (Nat.pow 2 63 - 1) : Nat)

/-- A count read as a 64-bit signed integer, modulo `2 ^ 64`. -/
def signed (n : Nat) : Int := Int.bmod n 18446744073709551616

theorem signed_of_le {n : Nat} (h : n ≤ 9223372036854775807) : signed n = n :=
  Int.bmod_eq_of_le (by omega) (by omega)

/-! ## some values -/

example : ofFloat (toFloat 9007199254740993) = 9007199254740992 := by decide +kernel

example : ofFloat (toFloat 18446744073709551615) = 9223372036854775807 := by decide +kernel

example : ofFloat (-2.5) = -2 := by decide +kernel

example : ofFloat (0 / 0) = 0 := by decide +kernel

end BalanceAttack.Whole

import BalanceAttack.Decimal.Text

/-!
# BalanceAttack.Decimal.Fixed

Floats with a fixed number of decimal places.  The exact binary value is
rounded to the nearest multiple of the last place, a half to the even one.
-/

namespace BalanceAttack.Decimal

/-- The natural number nearest to a quotient, a half going to the even one. -/
def divNearest (n d : Nat) : Nat :=
  let q := n / d
  let r := n % d
  if 2 * r < d then q
  else if d < 2 * r then q + 1
  else q + q % 2

/-- A number in units of the last of its decimal places, rounded. -/
def roundPlaces (v : Binary) (places : Nat) : Nat :=
  divNearest (v.mantissa * Nat.pow 2 v.exponent.toNat * Nat.pow 10 places)
    (Nat.pow 2 (-v.exponent).toNat)

/-- A float with a fixed number of decimal places. -/
def fixed (places : Nat) : Float → String :=
  written fun v => withPlaces (roundPlaces v places) places

/-! ## rounding -/

theorem divNearest_mul {q d : Nat} (hd : 0 < d) : divNearest (q * d) d = q := by
  simp [divNearest, hd]

/-- The result is within half a unit. -/
theorem divNearest_near {n d : Nat} (hd : 0 < d) :
    2 * n ≤ (2 * divNearest n d + 1) * d ∧ (2 * divNearest n d) * d ≤ 2 * n + d := by
  have h := Nat.div_add_mod n d
  have hr := Nat.mod_lt n hd
  have hc : d * (n / d) = (n / d) * d := Nat.mul_comm _ _
  unfold divNearest
  dsimp only
  generalize n / d = q at *
  generalize n % d = r at *
  split
  · grind
  · split
    · grind
    · rcases Nat.mod_two_eq_zero_or_one q with hq | hq <;> rw [hq] <;> grind

/-- A half goes to the even neighbour. -/
theorem divNearest_half_even {n d : Nat} (h : 2 * (n % d) = d) :
    divNearest n d % 2 = 0 := by
  simp only [divNearest]
  rw [if_neg (by omega), if_neg (by omega)]
  omega

end BalanceAttack.Decimal

import BalanceAttack.Decimal.Binary

/-!
# BalanceAttack.Decimal.Text

How numbers are written: in positional notation whatever their size, with a
sign for negative numbers and negative zero, and with words for what is no
finite number.
-/

namespace BalanceAttack.Decimal

/-- A text of at least the given length, with zeros in front. -/
def padZeros (length : Nat) (s : String) : String :=
  "".pushn '0' (length - s.length) ++ s

/-- The number `n / 10 ^ places` with all its places. -/
def withPlaces (n places : Nat) : String :=
  if places = 0 then toString n
  else toString (n / Nat.pow 10 places) ++ "." ++
    padZeros places (toString (n % Nat.pow 10 places))

/-- Drops zeros at the end of the places of `n / 10 ^ places`. -/
def dropZeros (n : Nat) : Nat → Nat × Nat
  | 0 => (n, 0)
  | places + 1 => if n % 10 = 0 then dropZeros (n / 10) places else (n, places + 1)

/-- The number `digits · 10 ^ exponent`, without needless places. -/
def positional (digits : Nat) (exponent : Int) : String :=
  if 0 ≤ exponent then toString (digits * Nat.pow 10 exponent.toNat)
  else
    let (n, places) := dropZeros digits (-exponent).toNat
    withPlaces n places

/-- Writes a float, given how the absolute value of a finite one is written. -/
def written (finite : Binary → String) (x : Float) : String :=
  if x.isNaN then "NaN"
  else
    let sign := if isNegative x then "-" else ""
    if x.isFinite then sign ++ finite (Binary.ofFloat x) else sign ++ "inf"

end BalanceAttack.Decimal

import BalanceAttack.Decimal.Text

/-!
# BalanceAttack.Decimal.Shortest

The shortest decimal that reads back as a float.  The reals that round to a
float form an interval, its ends included when the mantissa is even.  The
coarsest decimal grid with a point in the interval gives the fewest digits; if
the points on both sides of the value lie in the interval, the nearer is
taken, and of two equally near ones the larger.
-/

namespace BalanceAttack.Decimal

/-- The lower and the upper end of the interval that rounds to a number, in
quarters of its last binary place.  Below the smallest normal mantissa the
neighbour is twice as near. -/
def quarters (m : Nat) : Nat × Nat :=
  (if m = Binary.smallestNormal then 4 * m - 1 else 4 * m - 2, 4 * m + 2)

/-- The multiple of `10 ^ grid` that stands for a number, if one lies in its interval. -/
def gridPoint (v : Binary) (grid : Int) : Option Nat :=
  let scale := Nat.pow 2 (v.exponent - 2).toNat * Nat.pow 10 (-grid).toNat
  let unit := Nat.pow 2 (2 - v.exponent).toNat * Nat.pow 10 grid.toNat
  let value := 4 * v.mantissa * scale
  let low := (quarters v.mantissa).1 * scale
  let high := (quarters v.mantissa).2 * scale
  let inside (x : Nat) : Bool :=
    if v.mantissa % 2 = 0 then low ≤ x && x ≤ high else low < x && x < high
  let below := value / unit
  let above := below + 1
  match inside (below * unit), inside (above * unit) with
  | true, true => some (if value - below * unit < above * unit - value then below else above)
  | true, false => some below
  | false, true => some above
  | false, false => none

/-- The grids in question, the coarsest first: from above the largest float
down to finer than the distance of the smallest ones. -/
def grids : List Int := (List.range 640).map fun i : Nat => 310 - (i : Int)

/-- The shortest digits of a positive number, and the power of ten they count. -/
def shortestDigits (v : Binary) : Nat × Int :=
  (grids.findSome? fun grid => (gridPoint v grid).map (·, grid)).getD (0, 0)

/-- The shortest text that reads back as a float. -/
def shortest : Float → String :=
  written fun v =>
    if v.mantissa = 0 then "0"
    else
      let (digits, exponent) := shortestDigits v
      positional digits exponent

end BalanceAttack.Decimal

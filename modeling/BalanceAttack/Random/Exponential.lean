import BalanceAttack.Random.Uniform
import BalanceAttack.Random.Ziggurat
import BalanceAttack.Whole

/-!
# BalanceAttack.Random.Exponential

Exponentially distributed draws by the ziggurat method: a word chooses a layer
and a point across it.  A point that lies under the layer above is inside the
density at once; in the lowest layer any other point is replaced by a draw
from the tail, and elsewhere it is kept when a second point, up the layer,
falls below the density.
-/

namespace BalanceAttack.Random

open Ziggurat

/-- The layer a word chooses, by its low eight bits. -/
def layerOfWord (w : UInt64) : Fin 256 := ⟨w.toNat % 256, Nat.mod_lt _ (by decide)⟩

/-- The point across its layer a word chooses, as a part of the width, by its high 52 bits. -/
def acrossOfWord (w : UInt64) : Float :=
  Float.ofBits ((w >>> 12) ||| 0x3ff0000000000000) - Float.ofBits 0x3fefffffffffffff

namespace Draw

variable {σ : Type} [WordSource σ]

/-- One turn of the ziggurat: a point inside the density, or nothing. -/
def zigguratTurn : Draw σ (Unit ⊕ Float) := do
  let w ← word
  let i := layerOfWord w
  let x := acrossOfWord w * edge i.castSucc
  if x < edge i.succ then
    return .inr x
  else if i = 0 then
    return .inr (tailStart - Float.log (← unit))
  else
    let up ← unit
    if height i.succ + (height i.castSucc - height i.succ) * up < Float.exp (-x) then
      return .inr x
    else
      return .inl ()

/-- Draws from the exponential distribution with mean one. -/
def exponential : Draw σ Float := settle (fun () => zigguratTurn) ()

/-- Draws the whole part of a time that is exponentially distributed with the given mean. -/
def interval (mean : Float) : Draw σ Int :=
  return Whole.ofFloat ((← exponential) * (1 / (1 / mean)))

/-- A point that lies under the next layer of the ziggurat is taken at once. -/
theorem interval_of_lt {mean : Float} {supply rest : Supply σ} {w : UInt64}
    (hword : word supply = .ok (w, rest))
    (hlow : acrossOfWord w * edge (layerOfWord w).castSucc < edge (layerOfWord w).succ) :
    interval mean supply = .ok (Whole.ofFloat
      (acrossOfWord w * edge (layerOfWord w).castSucc * (1 / (1 / mean))), rest) := by
  have hturn : zigguratTurn supply =
      .ok (.inr (acrossOfWord w * edge (layerOfWord w).castSucc), rest) := by
    unfold zigguratTurn
    simp only [bind, StateT.bind, hword, Except.bind, if_pos hlow]
    rfl
  have hexp : exponential supply =
      .ok (acrossOfWord w * edge (layerOfWord w).castSucc, rest) := by
    unfold exponential settle
    simp only [bind, StateT.bind, Except.bind, get, getThe, MonadStateOf.get, StateT.get, pure,
      Except.pure, settleWithin, hturn]
    rfl
  unfold interval
  simp only [bind, StateT.bind, hexp, Except.bind]
  rfl

end Draw

end BalanceAttack.Random

import BalanceAttack.Adversary.Basic

/-!
# BalanceAttack.Adversary.Scripted

An adversary that follows a script: it takes the sides it mines on in turn
from a list, and its decisions one after the other from another, whatever the
honest nodes do.
-/

namespace BalanceAttack

/-- What a scripted adversary is to do. -/
structure Script where
  /-- The sides to mine on, over and over. -/
  sides : Array Side
  /-- The decisions; after the last one nothing is sent any more. -/
  releases : Array Release
  /-- Are the honest nodes divided? -/
  partitioned : Bool := true

/-- How far a scripted adversary has come. -/
structure Scripted where
  partition : Partition := .empty
  mined : Nat := 0
  borrowed : Nat := 0
  /-- The number of decisions so far. -/
  calls : Nat := 0

namespace Script

/-- The side to mine on after the given number of blocks. -/
def side (s : Script) (mined : Nat) : Except Fault Side := Fault.read s.sides (mined % s.sides.size)

/-- A decision of the script by its number. -/
def decision (s : Script) (k : Nat) : Release := s.releases.getD k ⟨[], .left, 0⟩

/-- The adversary that follows a script. -/
def adversary (s : Script) (name : Option String := none) : Adversary Scripted where
  name := name.getD "Name not set"
  setUp nodes distances a :=
    if s.partitioned then
      match Partition.ofDistances nodes distances with
      | .ok partition => .ok { a with partition }
      | .error fault => .error ⟨fault, a⟩
    else .ok a
  partition := Scripted.partition
  start a := .ok a
  withhold _ _ _ a := .ok { a with mined := a.mined + 1 }
  chooseSide a :=
    match s.side a.mined with
    | .ok side => .ok (side, a)
    | .error fault => .error ⟨fault, a⟩
  observe _ _ _ a := .ok a
  release _ a :=
    let r := s.decision a.calls
    let borrowed := a.borrowed + r.shortfall.blocks
    if borrowed < Nat.pow 2 64 then .ok (r, { a with borrowed, calls := a.calls + 1 })
    else .error ⟨.overflow, a⟩
  borrowed := Scripted.borrowed
  withheld := Scripted.mined

end Script

end BalanceAttack

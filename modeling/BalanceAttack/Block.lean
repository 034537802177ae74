/-!
# BalanceAttack.Block

Block identifiers and the two subtrees that compete for the honest
participants.  Mined blocks are numbered `1, 2, 3, …` after the genesis block
`0`; a negative number marks a synthetic block, one that the adversary lent
itself and nobody mined.
-/

namespace BalanceAttack

/-- The identifier of a block. -/
structure BlockId where
  number : Int
  deriving DecidableEq, Repr, Inhabited

namespace BlockId

/-- The block every participant starts from. -/
def genesis : BlockId := ⟨0⟩

/-- A synthetic block was lent and not mined. -/
def isSynthetic (b : BlockId) : Bool := b.number < 0

instance : Ord BlockId := ⟨fun a b => compare a.number b.number⟩

instance : Std.TransOrd BlockId where
  eq_swap := fun {a b} => Std.OrientedOrd.eq_swap (a := a.number) (b := b.number)
  isLE_trans := fun hab hbc => Std.TransOrd.isLE_trans (α := Int) hab hbc

instance : Std.LawfulEqOrd BlockId where
  eq_of_compare := fun h => congrArg BlockId.mk (Std.LawfulEqOrd.eq_of_compare (α := Int) h)

end BlockId

/-- One of the two competing subtrees under the fork point. -/
inductive Side where
  | left
  | right
  deriving DecidableEq, Ord, Repr, Inhabited

namespace Side

/-- The competing side. -/
def other : Side → Side
  | left => right
  | right => left

/-- The letter a side is written with. -/
def letter : Side → String
  | left => "L"
  | right => "R"

@[simp] theorem other_other (s : Side) : s.other.other = s := by cases s <;> rfl

theorem other_ne (s : Side) : s.other ≠ s := by cases s <;> decide

theorem eq_other_of_ne {s t : Side} (h : s ≠ t) : s = t.other := by
  cases s <;> cases t <;> first | rfl | exact absurd rfl h

end Side

end BalanceAttack

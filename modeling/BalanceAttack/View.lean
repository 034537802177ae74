import BalanceAttack.Block
import Std.Data.TreeSet.Lemmas

/-!
# BalanceAttack.View

What one participant knows about the two competing subtrees: the blocks it
has received, the weight of either side, and the side to mine on.  That side is
kept and not compared anew each time it is asked for.  A delivery sets it again:
the left side whenever that is at least as heavy as the right one, so an empty
view favors the left.  The blocks received are kept in a search tree, which is
asked only what is in it and how much that is.

A block counts once, on the side it was first delivered on:

* `record_of_has`, `has_record`, `weight_record` — what a delivery does;
* `upToDate_fresh`, `UpToDate.record` — the side that is kept goes with the weights
  from the first delivery to the last.
-/

namespace BalanceAttack

/-- Whose knowledge a view stands for. -/
inductive Participant where
  /-- An honest node, or what the adversary takes that node to know. -/
  | node (index : Nat)
  /-- The adversary, with all that it has observed anywhere. -/
  | adversary
  deriving DecidableEq, Repr

/-- What one participant knows about the two competing subtrees, and the side that it
mines on. -/
structure View where
  owner : Participant
  side : Side := .left
  left : Nat := 0
  right : Nat := 0
  received : Std.TreeSet BlockId := ∅

namespace View

/-- Sets the side again, from the weights. -/
def updateSide (v : View) : View :=
  { v with side := if v.right ≤ v.left then .left else .right }

/-- The view of a participant that has received nothing. -/
def fresh (owner : Participant) : View := updateSide { owner }

/-- The number of blocks received on a side. -/
def weight (v : View) : Side → Nat
  | .left => v.left
  | .right => v.right

/-- By how much the left side is heavier than the right one. -/
def lead (v : View) : Int := v.left - v.right

/-- Has the block been received? -/
def has (v : View) (b : BlockId) : Bool := v.received.contains b

/-- The number of blocks received. -/
def count (v : View) : Nat := v.received.size

/-- Delivers a block on a side; a block that was received before changes nothing. -/
def record (v : View) (b : BlockId) (s : Side) : View :=
  if v.has b then v
  else
    let received := v.received.insert b
    match s with
    | .left => updateSide { v with left := v.left + 1, received }
    | .right => updateSide { v with right := v.right + 1, received }

/-- Delivers a block on a side, and answers whether it is new. -/
def deliver (v : View) (b : BlockId) (s : Side) : Bool × View :=
  if v.has b then (false, v) else (true, v.record b s)

/-! ## what a delivery changes -/

@[simp] theorem has_fresh (o : Participant) (b : BlockId) : (fresh o).has b = false := by
  simp [fresh, updateSide, has]

@[simp] theorem weight_fresh (o : Participant) (s : Side) : (fresh o).weight s = 0 := by
  cases s <;> rfl

@[simp] theorem side_fresh (o : Participant) : (fresh o).side = .left := rfl

theorem record_of_has {v : View} {b : BlockId} (h : v.has b = true) (s : Side) :
    v.record b s = v := by
  simp [record, h]

@[simp] theorem deliver_fst (v : View) (b : BlockId) (s : Side) :
    (v.deliver b s).1 = !v.has b := by
  cases h : v.has b <;> simp [deliver, h]

@[simp] theorem deliver_snd (v : View) (b : BlockId) (s : Side) :
    (v.deliver b s).2 = v.record b s := by
  cases h : v.has b <;> simp [deliver, record, h]

theorem has_record (v : View) (b c : BlockId) (s : Side) :
    (v.record b s).has c = (b == c || v.has c) := by
  unfold record
  by_cases h : v.has b = true
  · by_cases hbc : b = c
    · subst hbc; simp [h]
    · simp [h, hbc]
  · have hsame : (compare b c == .eq) = (b == c) := by
      rw [Bool.eq_iff_iff, beq_iff_eq, beq_iff_eq, Std.LawfulEqCmp.compare_eq_iff_eq]
    rw [if_neg h]
    cases s <;> exact Std.TreeSet.contains_insert.trans (congrArg (· || _) hsame)

theorem weight_record {v : View} {b : BlockId} (h : v.has b = false) (s t : Side) :
    (v.record b s).weight t = v.weight t + if t = s then 1 else 0 := by
  cases s <;> cases t <;> simp [record, updateSide, h, weight]

theorem lead_eq (v : View) : v.lead = (v.weight .left : Int) - v.weight .right := rfl

/-! ## the side that is kept -/

/-- The side that is kept is the one that the weights favor. -/
def UpToDate (v : View) : Prop := v.side = .left ↔ v.weight .right ≤ v.weight .left

theorem upToDate_updateSide (v : View) : v.updateSide.UpToDate := by
  simp [UpToDate, updateSide, weight]

theorem upToDate_fresh (o : Participant) : (fresh o).UpToDate := upToDate_updateSide _

/-- A delivery that is new sets the side again, and no other moves a weight. -/
theorem UpToDate.record {v : View} (h : v.UpToDate) (b : BlockId) (s : Side) :
    (v.record b s).UpToDate := by
  unfold View.record
  split
  · exact h
  · cases s <;> exact upToDate_updateSide _

end View

end BalanceAttack

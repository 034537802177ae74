import BalanceAttack.Block

/-!
# BalanceAttack.Adversary.Backlog

The blocks of one side that the adversary keeps back.  Blocks are sent in the
order in which they came in, so a backlog is the list of all blocks that ever
came in and the number of those that have been sent: `pending` is what is left
of that list.
-/

namespace BalanceAttack

/-- A block with the time it was mined. -/
structure Withheld where
  time : Int
  block : BlockId
  deriving DecidableEq, Repr, Inhabited

/-- The blocks of one side that were kept back at some time. -/
structure Backlog where
  entries : Array Withheld := #[]
  /-- How many of them have been sent. -/
  released : Nat := 0
  released_le : released ≤ entries.size := by exact Nat.zero_le _

namespace Backlog

/-- The blocks that are still kept back, the oldest first. -/
def pending (b : Backlog) : List Withheld := b.entries.toList.drop b.released

/-- The number of blocks that are still kept back. -/
def size (b : Backlog) : Nat := b.entries.size - b.released

/-- Keeps back one more block. -/
def push (b : Backlog) (w : Withheld) : Backlog where
  entries := b.entries.push w
  released := b.released
  released_le := by
    have h := b.released_le
    rw [Array.size_push]
    omega

/-- The oldest block that is kept back, if there is one. -/
def first? (b : Backlog) : Option Withheld := b.entries[b.released]?

/-- The oldest blocks that are kept back, at most the given number. -/
def oldest (b : Backlog) (count : Nat) : List Withheld :=
  (b.entries.extract b.released (b.released + count)).toList

/-- The backlog once its oldest blocks have been sent. -/
def drop (b : Backlog) (count : Nat) : Backlog where
  entries := b.entries
  released := min (b.released + count) b.entries.size
  released_le := Nat.min_le_right _ _

/-! ## the blocks kept back -/

theorem length_pending (b : Backlog) : b.pending.length = b.size := by
  simp [pending, size]

theorem pending_push (b : Backlog) (w : Withheld) :
    (b.push w).pending = b.pending ++ [w] := by
  simp [pending, push, List.drop_append_of_le_length, b.released_le]

theorem first?_eq (b : Backlog) : b.first? = b.pending.head? := by
  simp [first?, pending, List.head?_drop]

theorem oldest_eq (b : Backlog) (count : Nat) : b.oldest count = b.pending.take count := by
  simp [oldest, pending, List.extract_eq_take_drop]

theorem pending_drop (b : Backlog) (count : Nat) :
    (b.drop count).pending = b.pending.drop count := by
  simp only [pending, drop, List.drop_drop]
  by_cases h : b.released + count ≤ b.entries.size
  · rw [Nat.min_eq_left h]
  · rw [Nat.min_eq_right (by omega), List.drop_eq_nil_of_le (by simp),
      List.drop_eq_nil_of_le (by simp; omega)]

theorem drop_zero (b : Backlog) : b.drop 0 = b := by
  have hle := b.released_le
  cases b
  simp only [drop, mk.injEq, true_and]
  omega

theorem drop_drop (b : Backlog) (m n : Nat) : (b.drop m).drop n = b.drop (m + n) := by
  simp only [drop, mk.injEq, true_and]
  omega

/-- All that is kept back is no more than there is. -/
theorem drop_min_size (b : Backlog) (count : Nat) : b.drop (min count b.size) = b.drop count := by
  have hle := b.released_le
  simp only [drop, size, mk.injEq, true_and]
  omega

/-- The next block to be sent is behind those that were sent before it. -/
theorem oldest_succ (b : Backlog) (count : Nat) :
    b.oldest (count + 1) = b.oldest count ++ (b.drop count).first?.toList := by
  rw [oldest_eq, oldest_eq, first?_eq, pending_drop, List.head?_drop, List.take_add_one]

theorem length_oldest (b : Backlog) (count : Nat) : (b.oldest count).length = min count b.size := by
  rw [oldest_eq, List.length_take, length_pending]

/-- Nothing is left once as many blocks were sent as there are. -/
theorem first?_drop_eq_none_iff (b : Backlog) (count : Nat) :
    (b.drop count).first? = none ↔ b.size ≤ count := by
  rw [first?_eq, pending_drop, List.head?_drop, List.getElem?_eq_none_iff, length_pending]

end Backlog

end BalanceAttack

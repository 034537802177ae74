import BalanceAttack.Block
import BalanceAttack.Time

/-!
# BalanceAttack.Schedule.Event

What happens at a point of simulated time.  Of the events of one millisecond
blocks are mined first, then they are delivered, then the adversary reacts,
and then it is checked whether the fork is resolved; `Event.rank` is this
order.
-/

namespace BalanceAttack

/-- Something that happens at a point of simulated time. -/
inductive Event where
  /-- The network finds a new block. -/
  | mine
  /-- A node receives a block. -/
  | deliver (peer : Nat) (side : Side) (block : BlockId)
  /-- The adversary learns that a node has received a block. -/
  | observe (side : Side) (block : BlockId) (peer : Nat)
  /-- It is checked whether all honest nodes agree on a side. -/
  | check
  /-- Nothing is left to do. -/
  | idle
  deriving DecidableEq, Repr

/-- The place of an event among those of the same time. -/
def Event.rank : Event → Nat
  | mine => 0
  | deliver .. => 1
  | observe .. => 2
  | check => 3
  | idle => 4

/-- The block that an event brings to a node, with its side. -/
def Event.arrivalAt (node : Nat) : Event → Option (Side × BlockId)
  | deliver peer side block => if peer = node then some (side, block) else none
  | _ => none

/-- The block that an event tells the adversary a node has received, with its side. -/
def Event.reportOn (node : Nat) : Event → Option (Side × BlockId)
  | observe side block peer => if peer = node then some (side, block) else none
  | _ => none

/-- The node that an event is about. -/
def Event.peer : Event → Option Nat
  | deliver peer _ _ => some peer
  | observe _ _ peer => some peer
  | _ => none

/-- The block that an event is about. -/
def Event.block : Event → Option BlockId
  | deliver _ _ block => some block
  | observe _ block _ => some block
  | _ => none

/-- An event at its time, with the number of events scheduled before it. -/
structure Scheduled where
  time : Int
  order : Nat
  event : Event
  deriving DecidableEq, Repr

namespace Scheduled

/-- Does an event come no later than another: by time, then by rank, then in
the order they were scheduled? -/
def notAfter (a b : Scheduled) : Bool :=
  a.time < b.time ||
    (a.time == b.time &&
      (a.event.rank < b.event.rank || (a.event.rank == b.event.rank && a.order ≤ b.order)))

theorem notAfter_iff {a b : Scheduled} :
    a.notAfter b = true ↔ a.time < b.time ∨ a.time = b.time ∧
      (a.event.rank < b.event.rank ∨ a.event.rank = b.event.rank ∧ a.order ≤ b.order) := by
  simp [notAfter]

theorem notAfter_total (a b : Scheduled) : a.notAfter b = true ∨ b.notAfter a = true := by
  simp only [notAfter_iff]
  omega

theorem notAfter_trans {a b c : Scheduled} (h : a.notAfter b = true) (h' : b.notAfter c = true) :
    a.notAfter c = true := by
  simp only [notAfter_iff] at *
  omega

/-- Events that are not after one another were scheduled under the same number. -/
theorem order_eq_of_notAfter {a b : Scheduled} (h : a.notAfter b = true)
    (h' : b.notAfter a = true) : a.order = b.order := by
  simp only [notAfter_iff] at *
  omega

end Scheduled

end BalanceAttack

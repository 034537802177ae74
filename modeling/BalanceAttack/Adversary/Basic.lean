import BalanceAttack.Partition

/-!
# BalanceAttack.Adversary.Basic

What a run asks of an adversary.  An adversary is a record of acts on a state
of its own; an act that faults hands back the state it leaves, so that what
was observed up to the fault is not lost.
-/

namespace BalanceAttack

/-- A fault, with the adversary's state at that moment. -/
structure Crash (α : Type) where
  fault : Fault
  state : α

/-- An answer, or a crash in the given state. -/
def Fault.orCrash {α β : Type} (x : Except Fault β) (state : α) : Except (Crash α) β :=
  match x with
  | .ok b => .ok b
  | .error fault => .error ⟨fault, state⟩

/-- How many blocks a release fell short, and of which side. -/
structure Shortfall where
  side : Side
  blocks : Nat
  deriving DecidableEq, Repr

/-- A decision of the adversary: the blocks it sends, in order, and those it lacked. -/
structure Release where
  sent : List (Side × BlockId)
  shortfall : Shortfall
  deriving DecidableEq, Repr

/-- An adversary with states in `α`. -/
structure Adversary (α : Type) where
  name : String := "Name not set"
  /-- Learns the number of honest nodes and the latencies between them. -/
  setUp (nodes : Nat) (distances : Latencies) : α → Except (Crash α) α
  /-- How the honest nodes are divided. -/
  partition : α → Partition
  /-- Takes up the attack, once the nodes have received the genesis block. -/
  start : α → Except (Crash α) α
  /-- Keeps back a block on a side, mined at the given time. -/
  withhold (side : Side) (block : BlockId) (time : Int) : α → Except (Crash α) α
  /-- The side to mine the next block on. -/
  chooseSide : α → Except (Crash α) (Side × α)
  /-- Learns that a node has received a block. -/
  observe (side : Side) (block : BlockId) (peer : Nat) : α → Except (Crash α) α
  /-- Decides which blocks to send. -/
  release (time : Int) : α → Except (Crash α) (Release × α)
  /-- How many blocks have been lacking in all. -/
  borrowed : α → Nat
  /-- How many blocks are kept back. -/
  withheld : α → Nat

theorem Fault.orCrash_eq_ok_iff {α β : Type} {x : Except Fault β} {state : α} {b : β} :
    Fault.orCrash x state = .ok b ↔ x = .ok b := by
  cases x <;> simp [Fault.orCrash]

theorem Fault.orCrash_eq_error_iff {α β : Type} {x : Except Fault β} {state : α} {c : Crash α} :
    Fault.orCrash x state = .error c ↔ ∃ fault, x = .error fault ∧ c = ⟨fault, state⟩ := by
  cases x <;> simp [Fault.orCrash, eq_comm]

end BalanceAttack

import BalanceAttack.Schedule.Event

/-!
# BalanceAttack.Run.History

What has been done in a run so far.  Every event that is carried out leaves an
`Entry`: which event it was and when, the block an honest node mined, and what
went into and came out of the adversary's keeping.  A `History` is the list of
the entries of a run, the oldest first; a run neither reads nor keeps it.
-/

namespace BalanceAttack.Run

/-- What was done at one event. -/
structure Entry where
  time : Int
  event : Event
  /-- The block an honest node mined, with that node and the side it was mined on. -/
  mined : Option (Nat × Side × BlockId) := none
  /-- The blocks the adversary was given to keep back, mined or lent, in order. -/
  kept : List (Side × BlockId) := []
  /-- The blocks the adversary sent, in order. -/
  sent : List (Side × BlockId) := []
  deriving DecidableEq, Repr

/-- The blocks that came into being at an event. -/
def Entry.minted (e : Entry) : List (Side × BlockId) :=
  (e.mined.map Prod.snd).toList ++ e.kept

/-- The entries of a run, the oldest first. -/
abbrev History := List Entry

namespace History

/-- The blocks that honest nodes have mined. -/
def mined (h : History) : List (Side × BlockId) := h.filterMap fun e => e.mined.map Prod.snd

/-- The blocks that the adversary was given to keep back. -/
def kept (h : History) : List (Side × BlockId) := h.flatMap Entry.kept

/-- The blocks that the adversary has sent. -/
def sent (h : History) : List (Side × BlockId) := h.flatMap Entry.sent

/-- All blocks that have come into being, in order. -/
def minted (h : History) : List (Side × BlockId) := h.flatMap Entry.minted

/-- The blocks that have been made public, the genesis block first. -/
def published (h : History) : List (Side × BlockId) := (.right, .genesis) :: (h.mined ++ h.sent)

/-- The blocks that the adversary was told a node has received. -/
def reported (node : Nat) (h : History) : List (Side × BlockId) :=
  h.filterMap fun e => e.event.reportOn node

/-- The number of checks for agreement. -/
def checks (h : History) : Nat := h.countP fun e => e.event = .check

@[simp] theorem mined_nil : mined [] = [] := rfl

@[simp] theorem sent_nil : sent [] = [] := rfl

@[simp] theorem reported_nil (node : Nat) : reported node [] = [] := rfl

@[simp] theorem mined_append (h : History) (e : Entry) :
    mined (h ++ [e]) = h.mined ++ (e.mined.map Prod.snd).toList := by
  cases hm : e.mined <;> simp [mined, hm]

@[simp] theorem kept_append (h : History) (e : Entry) : kept (h ++ [e]) = h.kept ++ e.kept := by
  simp [kept]

@[simp] theorem sent_append (h : History) (e : Entry) : sent (h ++ [e]) = h.sent ++ e.sent := by
  simp [sent]

@[simp] theorem minted_append (h : History) (e : Entry) :
    minted (h ++ [e]) = h.minted ++ e.minted := by
  simp [minted]

@[simp] theorem reported_append (node : Nat) (h : History) (e : Entry) :
    reported node (h ++ [e]) = h.reported node ++ (e.event.reportOn node).toList := by
  cases hr : e.event.reportOn node <;> simp [reported, hr]

theorem checks_append (h : History) (e : Entry) :
    checks (h ++ [e]) = h.checks + if e.event = .check then 1 else 0 := by
  simp [checks, List.countP_cons]

/-- Other events do not tell the adversary anything of a node. -/
theorem reported_of_none {node : Nat} {e : Entry} (he : e.event.reportOn node = none)
    (h : History) : reported node (h ++ [e]) = h.reported node := by
  rw [reported_append, he, Option.toList_none, List.append_nil]

end History

end BalanceAttack.Run
